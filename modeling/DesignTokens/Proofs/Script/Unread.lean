import DesignTokens.Proofs.Script.Attempts

/-! # What the parser leaves unread

Every reader leaves an end of the tokens that it was given, so that all calls are made at places of
the script, and what is too deep opens at one of its tokens. -/
namespace DesignTokens.Script

/-- What is left unread is an end of the tokens. -/
def LeavesEnd {α : Type} {p : List Token → Prop} (ts : List Token)
    (o : Except Failure (α × { rest : List Token // p rest })) : Prop :=
  ∀ a rest, o = .ok (a, rest) → rest.1 <:+ ts

namespace LeavesEnd
variable {α β : Type} {p q : List Token → Prop} {ts us : List Token}

theorem error (failure : Failure) :
    LeavesEnd ts (.error failure : Except Failure (α × { rest : List Token // p rest })) := nofun

theorem ok {a : α} {rest : { rest : List Token // p rest }} (h : rest.1 <:+ ts) :
    LeavesEnd ts (.ok (a, rest)) := by
  intro a' rest' he
  obtain ⟨rfl, rfl⟩ := Prod.mk.inj (Except.ok.inj he)
  exact h

/-- The tokens may be given with others in front. -/
theorem map {o : Except Failure (α × { rest : List Token // p rest })}
    {f : α × { rest : List Token // p rest } → β × { rest : List Token // q rest }}
    (h : LeavesEnd us o) (hus : us <:+ ts) (hf : ∀ x, (f x).2.1 = x.2.1) :
    LeavesEnd ts (o.map f) := by
  cases o with
  | error failure => exact .error failure
  | ok x =>
    have hleaves : (f x).2.1 <:+ ts := by
      rw [hf]
      exact (h x.1 x.2 rfl).trans hus
    exact .ok hleaves

theorem mapValue {o : Parser.Outcome α ts} (f : α → β) (h : LeavesEnd ts o) :
    LeavesEnd ts (o.mapValue f) :=
  h.map List.suffix_rfl fun _ => rfl

theorem widen {o : Parser.Outcome α us} (h : LeavesEnd us o) (hus : us <:+ ts) :
    LeavesEnd ts (o.widen hus.length_le) :=
  h.map hus fun _ => rfl

end LeavesEnd

namespace Parser
variable {ts : List Token}

theorem skipBalanced_suffix {level : Nat} {rest : Rest ts} (h : skipBalanced level ts = some rest) :
    rest.1 <:+ ts := by
  induction ts generalizing level with
  | nil => cases h
  | cons t ts ih =>
    rw [skipBalanced] at h
    split at h
    · cases h
    · obtain rfl := Option.some.inj h
      exact List.suffix_cons t ts
    · obtain ⟨rest', hrest', rfl⟩ := Option.map_eq_some_iff.1 h
      exact (ih hrest').trans (List.suffix_cons t ts)

theorem nextItem?_suffix {d : Delimiter} {more : Left ts} (h : nextItem? d ts = some more) :
    more.1 <:+ ts := by
  cases ts with
  | nil => cases h
  | cons t ts =>
    rw [nextItem?] at h
    split at h
    · obtain rfl := Option.some.inj h
      exact List.suffix_cons t ts
    · split at h
      · obtain rfl := Option.some.inj h
        exact List.suffix_rfl
      · cases h

theorem key?_suffix {key : Option String} {rest : Rest ts} (h : key? ts = some (key, rest)) :
    rest.1 <:+ ts := by
  cases ts with
  | nil => cases h
  | cons t ts =>
    simp only [key?] at h
    split at h
    · obtain ⟨-, rfl⟩ := Prod.mk.inj (Option.some.inj h)
      exact List.suffix_cons t ts
    · obtain ⟨-, rfl⟩ := Prod.mk.inj (Option.some.inj h)
      exact List.suffix_cons t ts
    · obtain ⟨-, rfl⟩ := Prod.mk.inj (Option.some.inj h)
      exact List.suffix_cons t ts
    · obtain ⟨rest', hrest', he⟩ := Option.map_eq_some_iff.1 h
      obtain ⟨-, rfl⟩ := Prod.mk.inj he
      exact skipBalanced_suffix hrest'
    · cases h

mutual

theorem object_leaves (depth : Nat) (ts : List Token) : LeavesEnd ts (object depth ts) := by
  match ts with
  | [] =>
    rw [object]
    exact .error _
  | t :: ts =>
    rw [object]
    split
    · exact .error _
    · split
      · split
        · exact .error _
        · exact .ok ((members_leave depth ts _ _ ‹_›).trans (List.suffix_cons t ts))
      · exact .error _
termination_by (ts.length, 0)

theorem members_leave (depth : Nat) (ts : List Token) : LeavesEnd ts (members depth ts) := by
  match ts with
  | [] =>
    rw [members]
    exact .error _
  | t :: ts =>
    rw [members]
    split
    · exact .ok (List.suffix_cons t ts)
    · split
      · exact .error _
      · rename_i first rest hfirst
        have hrest := member_leaves depth (t :: ts) _ _ hfirst
        split
        · exact .error _
        · rename_i more hmore
          have hlt : more.1.length < (t :: ts).length := Nat.lt_of_le_of_lt more.2 rest.2
          split
          · exact .error _
          · exact .ok (((members_leave depth more.1 _ _ ‹_›).trans (nextItem?_suffix hmore)).trans
              hrest)
termination_by (ts.length, 5)

theorem member_leaves (depth : Nat) (ts : List Token) : LeavesEnd ts (member depth ts) := by
  match ts with
  | [] =>
    rw [member]
    exact .error _
  | t :: ts =>
    rw [member]
    split
    · exact ((value_leaves depth ts).mapValue _).widen (List.suffix_cons t ts)
    · split
      · exact .error _
      · exact .error _
      · rename_i key next more hlt hkey
        have hrest : next :: more <:+ t :: ts := key?_suffix hkey
        have hmore : more <:+ t :: ts := (List.suffix_cons next more).trans hrest
        have hlength : more.length < ts.length := Nat.lt_of_succ_lt_succ hlt
        split
        · exact ((value_leaves depth more).mapValue _).widen hmore
        · split
          · exact ((method_leaves depth (next :: more)).mapValue _).widen hrest
          · split
            · exact .ok hrest
            · exact .error _
termination_by (ts.length, 4)

theorem method_leaves (depth : Nat) (ts : List Token) : LeavesEnd ts (method depth ts) := by
  match ts with
  | [] =>
    rw [method]
    exact .error _
  | t :: ts =>
    rw [method]
    split
    · exact .error _
    · exact .error _
    · rename_i next body hlt hskip
      have hbody : next :: body <:+ t :: ts := skipBalanced_suffix hskip
      have hlength : body.length < ts.length := Nat.lt_of_succ_lt_succ hlt
      split
      · exact (dynamic_leaves depth t.span.start (next :: body)).widen hbody
      · exact .error _
termination_by (ts.length, 3)

theorem array_leaves (depth : Nat) (ts : List Token) : LeavesEnd ts (array depth ts) := by
  match ts with
  | [] =>
    rw [array]
    exact .error _
  | t :: ts =>
    rw [array]
    split
    · exact .error _
    · split
      · split
        · exact .error _
        · exact .ok ((items_leave depth ts _ _ ‹_›).trans (List.suffix_cons t ts))
      · exact .error _
termination_by (ts.length, 0)

theorem items_leave (depth : Nat) (ts : List Token) : LeavesEnd ts (items depth ts) := by
  match ts with
  | [] =>
    rw [items]
    exact .error _
  | t :: ts =>
    rw [items]
    split
    · exact .ok (List.suffix_cons t ts)
    · split
      · exact (items_leave depth ts).widen (List.suffix_cons t ts)
      · split
        · exact .error _
        · rename_i first rest hfirst
          have hrest := item_leaves depth (t :: ts) _ _ hfirst
          split
          · exact .error _
          · rename_i more hmore
            have hlt : more.1.length < (t :: ts).length := Nat.lt_of_le_of_lt more.2 rest.2
            split
            · exact .error _
            · exact .ok (((items_leave depth more.1 _ _ ‹_›).trans (nextItem?_suffix hmore)).trans
                hrest)
termination_by (ts.length, 5)

theorem item_leaves (depth : Nat) (ts : List Token) : LeavesEnd ts (item depth ts) := by
  match ts with
  | [] =>
    rw [item]
    exact .error _
  | t :: ts =>
    rw [item]
    split
    · exact ((value_leaves depth ts).mapValue _).widen (List.suffix_cons t ts)
    · exact value_leaves depth (t :: ts)
termination_by (ts.length, 4)

theorem value_leaves (depth : Nat) (ts : List Token) : LeavesEnd ts (value depth ts) := by
  match ts with
  | [] =>
    rw [value]
    exact .error _
  | t :: ts =>
    rw [value]
    split
    · exact .error _
    · exact dynamic_leaves depth t.span.start (t :: ts)
    · split
      · exact .ok (literal_leaves depth (t :: ts) _ _ ‹_›)
      · exact dynamic_leaves depth t.span.start (t :: ts)
termination_by (ts.length, 3)

theorem literal_leaves (depth : Nat) (ts : List Token) : LeavesEnd ts (literal depth ts) := by
  match ts with
  | [] =>
    rw [literal]
    exact .error _
  | t :: ts =>
    rw [literal]
    split
    · exact object_leaves (depth + 1) (t :: ts)
    · exact array_leaves (depth + 1) (t :: ts)
    · split
      · exact .ok (List.suffix_cons t ts)
      · exact .error _
termination_by (ts.length, 1)

theorem dynamic_leaves (depth start : Nat) (ts : List Token) :
    LeavesEnd ts (dynamic depth start ts) := by
  rw [dynamic]
  split
  · exact .error _
  · split
    · exact .ok (run_leaves depth 0 start ts _ _ ‹_›)
    · exact .error _
termination_by (ts.length, 2)

theorem run_leaves (depth level stop : Nat) (ts : List Token) :
    LeavesEnd ts (run depth level stop ts) := by
  match ts with
  | [] =>
    rw [run]
    exact .ok List.suffix_rfl
  | t :: ts =>
    rw [run]
    split
    · split
      · exact .error _
      · exact (run_leaves depth (level + 1) t.span.stop ts).map (List.suffix_cons t ts) fun _ => rfl
      · rename_i expr rest ho
        have hrest := object_leaves (depth + 1) (t :: ts) _ _ ho
        have hlt := rest.2
        exact (run_leaves depth level expr.span.stop rest.1).map hrest fun _ => rfl
    · split
      · exact .ok List.suffix_rfl
      · split
        · exact .error _
        · split
          · exact .error _
          · exact (run_leaves depth _ t.span.stop ts).map (List.suffix_cons t ts) fun _ => rfl
termination_by (ts.length, 1)

end

end Parser

namespace Call

/-- The tokens that a call is given. -/
def tokens : Call → List Token
  | roots ts | object _ ts | members _ ts | member _ ts | method _ ts | array _ ts | items _ ts
  | item _ ts | value _ ts | literal _ ts | dynamic _ _ ts | run _ _ _ ts => ts

/-- A call is made at a place among the tokens of the call that makes it. -/
theorem Makes.suffix {c c' : Call} (h : Makes c c') : c'.tokens <:+ c.tokens := by
  cases h with
  | object | firstMember | firstItem | plainItem | literal | dynamicForMismatch | dynamicForMore
  | literalObject | literalArray | run | objectInRun => exact List.suffix_rfl
  | rootsBehindToken | rootsInBlock | members | spreadMember | items | itemsBehindHole | spreadItem
  | runInBlock | runBehindToken => exact List.suffix_cons _ _
  | rootsBehindObject _ ho => exact Parser.object_leaves _ _ _ _ ho
  | runBehindObject _ ho => exact Parser.object_leaves _ _ _ _ ho
  | otherMembers _ hf hn => exact (Parser.nextItem?_suffix hn).trans (Parser.member_leaves _ _ _ _ hf)
  | otherItems _ _ hf hn => exact (Parser.nextItem?_suffix hn).trans (Parser.item_leaves _ _ _ _ hf)
  | pair _ hk _ => exact (List.suffix_cons _ _).trans (Parser.key?_suffix hk)
  | method _ hk _ => exact Parser.key?_suffix hk
  | methodBody hp _ => exact Parser.skipBalanced_suffix hp

/-- An object is attempted at a brace, and an array at a bracket. -/
theorem Makes.kind_of_isTooDeep {c c' : Call} {t : Token} (h : Makes c c') (ht : IsTooDeep t c') :
    t.kind = .opener .brace ∨ t.kind = .opener .bracket := by
  obtain ⟨depth, ts, -, rfl | rfl⟩ := ht
  · cases h with
    | object h | literalObject h | objectInRun h => exact .inl h
  · cases h with
    | literalArray h => exact .inr h

/-- What is attempted too deep in a script opens at one of its braces or brackets. -/
theorem Attempts.opens {ts : List Token} {t : Token} (h : Attempts t (roots ts)) :
    t ∈ ts ∧ (t.kind = .opener .brace ∨ t.kind = .opener .bracket) := by
  obtain ⟨c, hrun, hdeep⟩ := h
  have hsuffix : c.tokens <:+ ts := by
    clear hdeep
    induction hrun with
    | refl => exact List.suffix_rfl
    | tail _ hstep ih => exact hstep.suffix.trans ih
  constructor
  · obtain ⟨depth, us, -, rfl | rfl⟩ := hdeep
    · exact hsuffix.subset List.mem_cons_self
    · exact hsuffix.subset List.mem_cons_self
  · cases hrun with
    | refl =>
      obtain ⟨depth, us, -, h | h⟩ := hdeep
      · cases h
      · cases h
    | tail _ hstep => exact hstep.kind_of_isTooDeep hdeep

end Call
end DesignTokens.Script
