import DesignTokens.Proofs.Script.Attempts
import DesignTokens.Proofs.Script.Cursor
import DesignTokens.Proofs.Script.ParserSteps

/-! # The cursor reads what the parser reads

A reader that holds a position gives what the reader of the tokens from there on gives, and stops in
front of the tokens that the latter leaves, as long as the steps granted to it exceed the measure of
the call. -/
namespace DesignTokens.Script
open DesignTokens.Script.Parser (levelAfter endsValue)

/-- An outcome without the proof that something was read. -/
def plain {α : Type} {P : List Token → Prop} (o : Except Failure (α × Subtype P)) :
    Except Failure (α × List Token) :=
  o.map fun p => (p.1, p.2.1)

section
variable {α β : Type} {P : List Token → Prop}

@[simp] theorem plain_error (failure : Failure) :
    plain (.error failure : Except Failure (α × Subtype P)) = .error failure := rfl

@[simp] theorem plain_ok (value : α) (left : Subtype P) :
    plain (.ok (value, left)) = .ok (value, left.1) := rfl

theorem plain_widen {ts us : List Token} (h : us.length ≤ ts.length) (o : Parser.Outcome α us) :
    plain (o.widen h) = plain o := by
  cases o <;> rfl

theorem plain_mapValue {ts : List Token} (f : α → β) (o : Parser.Outcome α ts) :
    plain (o.mapValue f) = (plain o).map fun p => (f p.1, p.2) := by
  cases o <;> rfl

end

/-- Only a delimiter that closes a container outside can close too many. -/
theorem Parser.endsValue_of_levelAfter {level : Nat} {kind : TokenKind}
    (h : levelAfter level kind = none) : level = 0 ∧ endsValue kind := by
  cases kind with
  | closer delimiter =>
    rw [levelAfter] at h
    split at h
    · rename_i hlevel
      exact ⟨hlevel, rfl⟩
    · cases h
  | _ => cases h

private theorem Parser.dynamic_nil (depth start : Nat) :
    Parser.dynamic depth start [] = .error .mismatch := by
  rw [dynamic, run]
  rfl

namespace Stream
variable {s : Stream}

section
variable {p : Nat} {tooDeep : Option Nat} {t : Token} {ts : List Token}

private theorem current_of_nil (h : s.tokens.drop p = []) : s.current ⟨p, tooDeep⟩ = s.last := by
  rw [List.drop_eq_nil_iff] at h
  rw [current, List.getD_eq_getElem?_getD, List.getElem?_eq_none h, Option.getD_none]

private theorem lt_of_cons (h : s.tokens.drop p = t :: ts) : p < s.tokens.length := by
  refine Nat.lt_of_not_le fun hp => ?_
  rw [List.drop_eq_nil_iff.2 hp] at h
  cases h

theorem current_of_cons (h : s.tokens.drop p = t :: ts) : s.current ⟨p, tooDeep⟩ = t := by
  have ht : s.tokens[p]? = some t := by rw [← List.head?_drop, h, List.head?_cons]
  rw [current, List.getD_eq_getElem?_getD, ht, Option.getD_some]

private theorem drop_succ_of_cons (h : s.tokens.drop p = t :: ts) : s.tokens.drop (p + 1) = ts := by
  rw [← List.tail_drop, h, List.tail_cons]

private theorem advance_of_cons (h : s.tokens.drop p = t :: ts) :
    s.advance ⟨p, tooDeep⟩ = ⟨p + 1, tooDeep⟩ :=
  if_pos (Nat.succ_lt_succ (lt_of_cons h))

private theorem kind_ne_of_cons (h : s.tokens.drop p = t :: ts) : t.kind ≠ .endOfText := by
  have ht : t ∈ s.tokens.drop p := by
    rw [h]
    exact List.mem_cons_self
  exact s.kind_ne t (List.mem_of_mem_drop ht)

theorem check_of_nil (h : s.tokens.drop p = []) {kind : TokenKind} (hkind : kind ≠ .endOfText) :
    s.check kind ⟨p, tooDeep⟩ = false := by
  rw [check, current_of_nil h, s.last_kind]
  exact decide_eq_false hkind.symm

private theorem check_of_cons (h : s.tokens.drop p = t :: ts) (kind : TokenKind) :
    s.check kind ⟨p, tooDeep⟩ = decide (t.kind = kind) := by
  rw [check, current_of_cons h]

private theorem isShorthand_of_nil (h : s.tokens.drop p = []) (first : Token) :
    s.isShorthand first ⟨p, tooDeep⟩ = false := by
  rw [isShorthand, check_of_nil h (by simp), check_of_nil h (by simp)]
  split <;> rfl

private theorem isShorthand_of_cons (h : s.tokens.drop p = t :: ts) (first : Token) :
    s.isShorthand first ⟨p, tooDeep⟩ = Parser.isShorthand first (t :: ts) := by
  unfold isShorthand Parser.isShorthand
  simp only [check_of_cons h]
  cases first.kind <;> rfl

private theorem atValueEnd_eq (h : s.tokens.drop p = ts) :
    s.atValueEnd ⟨p, tooDeep⟩ = Parser.atValueEnd ts := by
  cases ts with
  | nil =>
    rw [atValueEnd, check, current_of_nil h, s.last_kind]
    rfl
  | cons t ts =>
    rw [atValueEnd, check_of_cons h, current_of_cons h, decide_eq_false (kind_ne_of_cons h),
      Bool.or_false]
    rfl

end

/-- A call gives what is read, in front of the tokens that are left, and it fails where nothing is.
Where a group is too deep, its position is known. -/
inductive Follows (s : Stream) (p : Nat) {α : Type} :
    Except Failure (α × List Token) → Halt α → Prop
  | done (value : α) {q : Nat} (hq : q ≤ max p s.tokens.length) :
      Follows s p (.ok (value, s.tokens.drop q)) (.done value ⟨q, none⟩)
  | failed (q : Nat) : Follows s p (.error .mismatch) (.failed ⟨q, none⟩)
  | tooDeep (q : Nat) {i : Nat} {t : Token} {ts : List Token} (h : s.tokens.drop i = t :: ts) :
      Follows s p (.error (.tooDeep t.span.start)) (.failed ⟨q, some i⟩)

namespace Follows
variable {α β : Type} {p : Nat} {o : Except Failure (α × List Token)} {h : Halt α}

theorem done_of (value : α) {q : Nat} {left : List Token} (hq : q ≤ max p s.tokens.length)
    (hleft : s.tokens.drop q = left) : Follows s p (.ok (value, left)) (.done value ⟨q, none⟩) := by
  subst hleft
  exact .done value hq

theorem mono (q : Nat) (hq : q ≤ max p s.tokens.length) (hf : Follows s q o h) :
    Follows s p o h := by
  cases hf with
  | done value hle => exact .done value (by omega)
  | failed => exact .failed _
  | tooDeep _ ht => exact .tooDeep _ ht

theorem map (f : α → β) (hf : Follows s p o h) :
    Follows s p (o.map fun r => (f r.1, r.2)) (h.map f) := by
  cases hf with
  | done value hle => exact .done (f value) hle
  | failed => exact .failed _
  | tooDeep _ ht => exact .tooDeep _ ht

theorem andThen_error {p' : Nat} {failure : Failure} {next : α → Cursor → Halt β}
    (hf : Follows s p (.error failure) h) :
    Follows s p' (.error failure) (h.andThen next) := by
  cases hf with
  | failed => exact .failed _
  | tooDeep _ ht => exact .tooDeep _ ht

theorem orElse {next : α → Cursor → Halt β} {position : Nat} (other : Cursor → Halt β)
    {o' : Except Failure (β × List Token)} (hf : Follows s p (.error .mismatch) h)
    (ho : Follows s p o' (other ⟨position, none⟩)) :
    Follows s p o' (h.orElse next fun c => other (c.backTo position)) := by
  cases hf with
  | failed => exact ho

theorem orElse_tooDeep {start : Nat} {next : α → Cursor → Halt β} {other : Cursor → Halt β}
    (hf : Follows s p (.error (.tooDeep start)) h) :
    Follows s p (.error (.tooDeep start)) (h.orElse next other) := by
  cases hf with
  | tooDeep _ ht => exact .tooDeep _ ht

theorem exists_of_ok {value : α} {left : List Token} (hf : Follows s p (.ok (value, left)) h) :
    ∃ q, q ≤ max p s.tokens.length ∧ s.tokens.drop q = left ∧ h = .done value ⟨q, none⟩ := by
  cases hf with
  | done value hle => exact ⟨_, hle, rfl, rfl⟩

end Follows

section
variable {p : Nat} {ts : List Token}

theorem skipBalanced_follows (hts : s.tokens.drop p = ts) {steps : Nat}
    (hsteps : ts.length < steps) (level : Nat) :
    match Parser.skipped level ts with
    | none => ∃ q, s.skipBalanced steps level ⟨p, none⟩ = .failed ⟨q, none⟩
    | some left => ∃ stop q, q ≤ s.tokens.length ∧ s.tokens.drop q = left ∧
      s.skipBalanced steps level ⟨p, none⟩ = .done stop ⟨q, none⟩ := by
  induction ts generalizing p level steps with
  | nil =>
    obtain ⟨steps, rfl⟩ := Nat.exists_eq_succ_of_ne_zero (Nat.ne_of_gt hsteps)
    exact ⟨p, by rw [skipBalanced, current_of_nil hts, if_pos s.last_kind]⟩
  | cons t ts ih =>
    obtain ⟨steps, rfl⟩ := Nat.exists_eq_succ_of_ne_zero (Nat.ne_zero_of_lt hsteps)
    have hrest := drop_succ_of_cons hts
    rw [skipBalanced, current_of_cons hts, advance_of_cons hts, if_neg (kind_ne_of_cons hts),
      Parser.skipped_cons]
    rcases levelAfter level t.kind with _ | _ | level
    · exact ⟨p, rfl⟩
    · exact ⟨_, p + 1, lt_of_cons hts, hrest, rfl⟩
    · exact ih hrest (Nat.lt_of_succ_lt_succ hsteps) (level + 1)

theorem skipBalanced_of_none (hts : s.tokens.drop p = ts) {steps level : Nat}
    (hsteps : ts.length < steps) (h : Parser.skipBalanced level ts = none) :
    ∃ q, s.skipBalanced steps level ⟨p, none⟩ = .failed ⟨q, none⟩ := by
  have hfollows := skipBalanced_follows hts hsteps level
  rwa [Parser.skipped, h] at hfollows

theorem skipBalanced_of_some (hts : s.tokens.drop p = ts) {steps level : Nat}
    (hsteps : ts.length < steps) {rest : Rest ts} (h : Parser.skipBalanced level ts = some rest) :
    ∃ stop q, q ≤ s.tokens.length ∧ s.tokens.drop q = rest.1 ∧
      s.skipBalanced steps level ⟨p, none⟩ = .done stop ⟨q, none⟩ := by
  have hfollows := skipBalanced_follows hts hsteps level
  rwa [Parser.skipped, h] at hfollows

theorem key_of_none (hts : s.tokens.drop p = ts) {steps : Nat} (hsteps : ts.length < steps)
    (h : Parser.key? ts = none) : ∃ q, s.key steps ⟨p, none⟩ = .failed ⟨q, none⟩ := by
  cases ts with
  | nil => exact ⟨p, by rw [key, current_of_nil hts, s.last_kind]⟩
  | cons t ts =>
    rw [Parser.key?] at h
    rw [key, current_of_cons hts]
    cases hkind : t.kind with
    | identifier | string | number =>
      rw [hkind] at h
      cases h
    | opener delimiter =>
      cases delimiter with
      | bracket =>
        rw [hkind] at h
        obtain ⟨q, hq⟩ := skipBalanced_of_none hts hsteps (Option.map_eq_none_iff.1 h)
        exact ⟨q, by rw [hq]; rfl⟩
      | _ => exact ⟨p, rfl⟩
    | _ => exact ⟨p, rfl⟩

private theorem key_of_some (hts : s.tokens.drop p = ts) {steps : Nat} (hsteps : ts.length < steps)
    {name : Option String} {rest : Rest ts} (h : Parser.key? ts = some (name, rest)) :
    ∃ q, q ≤ s.tokens.length ∧ s.tokens.drop q = rest.1 ∧
      s.key steps ⟨p, none⟩ = .done name ⟨q, none⟩ := by
  cases ts with
  | nil => cases h
  | cons t ts =>
    have hnext : p + 1 ≤ s.tokens.length ∧ s.tokens.drop (p + 1) = ts :=
      ⟨lt_of_cons hts, drop_succ_of_cons hts⟩
    rw [Parser.key?] at h
    rw [key, current_of_cons hts, advance_of_cons hts]
    cases hkind : t.kind with
    | identifier | string | number =>
      rw [hkind] at h
      obtain ⟨rfl, rfl⟩ := Prod.mk.inj (Option.some.inj h)
      exact ⟨p + 1, hnext.1, hnext.2, rfl⟩
    | opener delimiter =>
      rw [hkind] at h
      cases delimiter with
      | bracket =>
        obtain ⟨skipped, hskip, hrest⟩ := Option.map_eq_some_iff.1 h
        obtain ⟨rfl, rfl⟩ := Prod.mk.inj hrest
        obtain ⟨stop, q, hle, hdrop, hq⟩ := skipBalanced_of_some hts hsteps hskip
        exact ⟨q, hle, hdrop, by rw [hq]; rfl⟩
      | _ => cases h
    | _ =>
      rw [hkind] at h
      cases h

private theorem nextItem?_of_cons {t : Token} (hts : s.tokens.drop p = t :: ts)
    (delimiter : Delimiter) :
    s.nextItem? delimiter ⟨p, none⟩ =
      if t.kind = .comma then some ⟨p + 1, none⟩
      else if t.kind = .closer delimiter then some ⟨p, none⟩ else none := by
  rw [nextItem?, check_of_cons hts, check_of_cons hts, advance_of_cons hts]
  simp only [decide_eq_true_eq]

private theorem afterItem_of_none {α : Type} {delimiter : Delimiter} (hts : s.tokens.drop p = ts)
    (h : Parser.nextItem? delimiter ts = none) (next : Cursor → Halt α) :
    s.afterItem delimiter ⟨p, none⟩ next = .failed ⟨p, none⟩ := by
  cases ts with
  | nil => rw [afterItem, nextItem?, check_of_nil hts (by simp), check_of_nil hts (by simp)]; rfl
  | cons t ts =>
    rw [Parser.nextItem?] at h
    split at h
    · cases h
    · rename_i hcomma
      split at h
      · cases h
      · rename_i hclose
        rw [afterItem, nextItem?_of_cons hts, if_neg hcomma, if_neg hclose]

private theorem afterItem_of_some {α : Type} {delimiter : Delimiter} (hts : s.tokens.drop p = ts)
    {more : Parser.Left ts} (h : Parser.nextItem? delimiter ts = some more) :
    ∃ q, q ≤ s.tokens.length ∧ s.tokens.drop q = more.1 ∧ ∀ next : Cursor → Halt α,
      s.afterItem delimiter ⟨p, none⟩ next = next ⟨q, none⟩ := by
  cases ts with
  | nil => cases h
  | cons t ts =>
    rw [Parser.nextItem?] at h
    split at h
    · rename_i hcomma
      obtain rfl := Option.some.inj h
      refine ⟨p + 1, lt_of_cons hts, drop_succ_of_cons hts, fun next => ?_⟩
      rw [afterItem, nextItem?_of_cons hts, if_pos hcomma]
    · rename_i hcomma
      split at h
      · rename_i hclose
        obtain rfl := Option.some.inj h
        refine ⟨p, Nat.le_of_lt (lt_of_cons hts), hts, fun next => ?_⟩
        rw [afterItem, nextItem?_of_cons hts, if_neg hcomma, if_pos hclose]
      · cases h

end

end Stream

/-- What the objects among some tokens come to; all tokens are read. -/
def rootsOutcome (ts : List Token) : Except Failure (List Expr × List Token) :=
  match Parser.roots ts with
  | .ok found => .ok (found, [])
  | .error start => .error (.tooDeep start)

/-- The reader that is called, granted some steps at a position, follows the parser. -/
def Call.Follows (s : Stream) (steps p : Nat) : Call → Prop
  | roots ts => s.tokens.drop p = ts →
    s.Follows p (rootsOutcome ts) (s.document steps ⟨p, none⟩)
  | object depth ts => ts ≠ [] → s.tokens.drop p = ts →
    s.Follows p (plain (Parser.object depth ts)) (s.object steps depth ⟨p, none⟩)
  | members depth ts => s.tokens.drop p = ts →
    s.Follows p (plain (Parser.members depth ts)) (s.members steps depth ⟨p, none⟩)
  | member depth ts => s.tokens.drop p = ts →
    s.Follows p (plain (Parser.member depth ts)) (s.member steps depth ⟨p, none⟩)
  | method depth ts => s.tokens.drop p = ts →
    s.Follows p (plain (Parser.method depth ts)) (s.method steps depth ⟨p, none⟩)
  | array depth ts => ts ≠ [] → s.tokens.drop p = ts →
    s.Follows p (plain (Parser.array depth ts)) (s.array steps depth ⟨p, none⟩)
  | items depth ts => s.tokens.drop p = ts →
    s.Follows p (plain (Parser.items depth ts)) (s.items steps depth ⟨p, none⟩)
  | item depth ts => s.tokens.drop p = ts →
    s.Follows p (plain (Parser.item depth ts)) (s.item steps depth ⟨p, none⟩)
  | value depth ts => s.tokens.drop p = ts →
    s.Follows p (plain (Parser.value depth ts)) (s.value steps depth ⟨p, none⟩)
  | literal depth ts => s.tokens.drop p = ts →
    s.Follows p (plain (Parser.literal depth ts)) (s.literal steps depth ⟨p, none⟩)
  | dynamic depth start ts =>
    (∀ t ∈ ts.head?, start = t.span.start ∨ t.kind = .opener .brace) → s.tokens.drop p = ts →
    s.Follows p (plain (Parser.dynamic depth start ts)) (s.dynamic steps depth start ⟨p, none⟩)
  | run depth level stop ts => s.tokens.drop p = ts →
    s.Follows p (plain (Parser.run depth level stop ts)) (s.run steps depth level stop ⟨p, none⟩)

namespace Stream
variable {s : Stream} {steps p depth : Nat} {ts : List Token}

/-- An item was read, and the loop goes on behind its comma or at the end of the container. -/
theorem afterItem_follows {α : Type} {delimiter : Delimiter} {us : List Token} {first : α} {q : Nat}
    {loop : Cursor → Halt (List α × Nat)} {o : Parser.Outcome (List α × Nat) us}
    {others : (more : List Token) → Parser.Outcome (List α × Nat) more}
    (hts : s.tokens.drop q = ts)
    (hnone : Parser.nextItem? delimiter ts = none → o = .error .mismatch)
    (hsome : ∀ more, Parser.nextItem? delimiter ts = some more →
      plain o = (plain (others more.1)).map fun r => ((first :: r.1.1, r.1.2), r.2))
    (hloop : ∀ r more, more.length ≤ ts.length → s.tokens.drop r = more →
      s.Follows r (plain (others more)) (loop ⟨r, none⟩)) :
    s.Follows p (plain o) (s.afterItem delimiter ⟨q, none⟩ fun c =>
      (loop c).map fun others => (first :: others.1, others.2)) := by
  cases hn : Parser.nextItem? delimiter ts with
  | none =>
    rw [afterItem_of_none hts hn, hnone hn]
    exact .failed q
  | some more =>
    obtain ⟨r, hr, hmore, hnext⟩ := afterItem_of_some hts hn
    rw [hnext, hsome more hn]
    exact .mono r (by omega) ((hloop r more.1 more.2 hmore).map fun others =>
      (first :: others.1, others.2))

theorem group_follows {α : Type} {delimiter : Delimiter} {t : Token} {us : List Token}
    {make : Text.Span → α → Expr} {inside : Cursor → Halt (α × Nat)}
    {o : Parser.Outcome Expr us} {contents : Parser.Outcome (α × Nat) ts}
    (hts : s.tokens.drop p = t :: ts)
    (hdeep : maxNesting < depth → o = .error (.tooDeep t.span.start))
    (hother : ¬maxNesting < depth → t.kind ≠ .opener delimiter → o = .error .mismatch)
    (hopener : ¬maxNesting < depth → t.kind = .opener delimiter →
      plain o = (plain contents).map fun r => (make ⟨t.span.start, r.1.2⟩ r.1.1, r.2))
    (hinside : s.Follows (p + 1) (plain contents) (inside ⟨p + 1, none⟩)) :
    s.Follows p (plain o) (s.group delimiter depth make inside ⟨p, none⟩) := by
  rw [group, advance_of_cons hts, current_of_cons hts]
  simp only [check_of_cons hts, decide_eq_true_eq]
  by_cases hdepth : maxNesting < depth
  · rw [if_pos hdepth, hdeep hdepth]
    exact .tooDeep p hts
  rw [if_neg hdepth]
  by_cases hkind : t.kind = .opener delimiter
  · rw [if_pos hkind, hopener hdepth hkind]
    have hlt := lt_of_cons hts
    exact .mono (p + 1) (by omega) (hinside.map fun r => make ⟨t.span.start, r.2⟩ r.1)
  · rw [if_neg hkind, hother hdepth hkind]
    exact .failed p

/-- All calls of a measure below the steps follow the parser. -/
def AllFollow (s : Stream) (steps : Nat) : Prop :=
  ∀ c : Call, c.measure < steps → ∀ p, c.Follows s steps p

section
variable (ih : s.AllFollow steps)
include ih

private theorem object_follows (h : (Call.object depth ts).measure ≤ steps) :
    (Call.object depth ts).Follows s (steps + 1) p := by
  intro hne hts
  obtain ⟨t, ts, rfl⟩ := List.exists_cons_of_ne_nil hne
  rw [Parser.object, object]
  refine group_follows hts (fun hd => if_pos hd) (fun hd hk => ?_) (fun hd hk => ?_)
    (ih (.members depth ts) (by simp [Call.measure] at h ⊢; omega) (p + 1) (drop_succ_of_cons hts))
  · rw [if_neg hd, if_neg hk]
  · rw [if_neg hd, if_pos hk]
    cases Parser.members depth ts <;> rfl

private theorem members_follows (h : (Call.members depth ts).measure ≤ steps) :
    (Call.members depth ts).Follows s (steps + 1) p := by
  intro hts
  have hmember := ih (.member depth ts) (by simp [Call.measure] at h ⊢; omega) p hts
  cases ts with
  | nil =>
    rw [Parser.members, members, check_of_nil hts (by simp)]
    rw [Parser.member] at hmember
    exact hmember.andThen_error
  | cons t ts =>
    rw [Parser.members, members]
    simp only [check_of_cons hts, advance_of_cons hts, current_of_cons hts, decide_eq_true_eq]
    have hlt := lt_of_cons hts
    by_cases hclose : t.kind = .closer .brace
    · rw [if_pos hclose, if_pos hclose]
      exact .done_of _ (by omega) (drop_succ_of_cons hts)
    rw [if_neg hclose, if_neg hclose]
    cases hm : Parser.member depth (t :: ts) with
    | error failure =>
      rw [hm] at hmember
      exact hmember.andThen_error
    | ok result =>
      obtain ⟨first, rest⟩ := result
      rw [hm] at hmember
      obtain ⟨q, -, hrest, hdone⟩ := hmember.exists_of_ok
      rw [hdone]
      dsimp only [Halt.andThen]
      refine afterItem_follows hrest (fun hn => by rw [hn]) (fun more hn => ?_)
        fun r more hle hmore => ih (.members depth more)
          (by have := rest.2; simp [Call.measure] at *; omega) r hmore
      rw [hn]
      dsimp only
      cases Parser.members depth more.1 <;> rfl

private theorem member_follows (h : (Call.member depth ts).measure ≤ steps) :
    (Call.member depth ts).Follows s (steps + 1) p := by
  intro hts
  have hsteps : ts.length < steps := by simp [Call.measure] at h; omega
  cases ts with
  | nil =>
    obtain ⟨q, hq⟩ := key_of_none hts hsteps rfl
    rw [Parser.member, member, check_of_nil hts (by simp), hq]
    exact .failed q
  | cons t ts =>
    have hlt := lt_of_cons hts
    rw [Parser.member, member]
    simp only [check_of_cons hts, advance_of_cons hts, current_of_cons hts, decide_eq_true_eq]
    by_cases hspread : t.kind = .spread
    · rw [if_pos hspread, if_pos hspread, plain_widen, plain_mapValue]
      have hvalue := ih (.value depth ts) (by simp [Call.measure] at h ⊢; omega) (p + 1)
        (drop_succ_of_cons hts)
      exact .mono (p + 1) (by omega) (hvalue.map Member.spread)
    rw [if_neg hspread, if_neg hspread]
    cases hkey : Parser.key? (t :: ts) with
    | none =>
      obtain ⟨q, hq⟩ := key_of_none hts hsteps hkey
      dsimp only
      rw [hq]
      exact .failed q
    | some result =>
      obtain ⟨name, rest⟩ := result
      obtain ⟨q, hle, hrest, hq⟩ := key_of_some hts hsteps hkey
      rw [hq]
      dsimp only [Halt.andThen]
      obtain ⟨_ | ⟨next, more⟩, hlength⟩ := rest
      · rw [check_of_nil hrest (by simp), check_of_nil hrest (by simp), isShorthand_of_nil hrest]
        exact .failed q
      dsimp only
      have hlt' := lt_of_cons hrest
      simp only [check_of_cons hrest, advance_of_cons hrest, decide_eq_true_eq]
      by_cases hcolon : next.kind = .colon
      · rw [if_pos hcolon, if_pos hcolon, plain_widen, plain_mapValue]
        have hvalue := ih (.value depth more) (by simp [Call.measure] at h hlength ⊢; omega) (q + 1)
          (drop_succ_of_cons hrest)
        exact .mono (q + 1) (by omega) (hvalue.map (Member.pair name))
      rw [if_neg hcolon, if_neg hcolon]
      by_cases hparen : next.kind = .opener .parenthesis
      · rw [if_pos hparen, if_pos hparen, plain_widen, plain_mapValue]
        have hmethod := ih (.method depth (next :: more))
          (by simp [Call.measure] at h hlength ⊢; omega) q hrest
        exact .mono q (by omega) (hmethod.map (Member.pair name))
      rw [if_neg hparen, if_neg hparen]
      rw [isShorthand_of_cons hrest]
      split
      · exact .done_of _ (by omega) hrest
      · exact .failed q

private theorem method_follows (h : (Call.method depth ts).measure ≤ steps) :
    (Call.method depth ts).Follows s (steps + 1) p := by
  intro hts
  have hsteps : ts.length < steps := by simp [Call.measure] at h; omega
  cases ts with
  | nil =>
    have hnone : Parser.skipBalanced 0 [] = none := rfl
    obtain ⟨q, hq⟩ := skipBalanced_of_none hts hsteps hnone
    rw [Parser.method, method, hq]
    exact .failed q
  | cons t ts =>
    rw [Parser.method, method]
    simp only [current_of_cons hts]
    cases hskip : Parser.skipBalanced 0 (t :: ts) with
    | none =>
      obtain ⟨q, hq⟩ := skipBalanced_of_none hts hsteps hskip
      dsimp only
      rw [hq]
      exact .failed q
    | some rest =>
      obtain ⟨stop, q, hle, hrest, hq⟩ := skipBalanced_of_some hts hsteps hskip
      rw [hq]
      dsimp only [Halt.andThen]
      obtain ⟨_ | ⟨next, body⟩, hlength⟩ := rest
      · rw [check_of_nil hrest (by simp)]
        exact .failed q
      dsimp only
      simp only [check_of_cons hrest, decide_eq_true_eq]
      by_cases hbrace : next.kind = .opener .brace
      · rw [if_pos hbrace, if_pos hbrace, plain_widen]
        have hdynamic := ih (.dynamic depth t.span.start (next :: body))
          (by simp [Call.measure] at h hlength ⊢; omega) q (by simp [hbrace]) hrest
        exact .mono q (by omega) hdynamic
      · rw [if_neg hbrace, if_neg hbrace]
        exact .failed q

private theorem array_follows (h : (Call.array depth ts).measure ≤ steps) :
    (Call.array depth ts).Follows s (steps + 1) p := by
  intro hne hts
  obtain ⟨t, ts, rfl⟩ := List.exists_cons_of_ne_nil hne
  rw [Parser.array, array]
  refine group_follows hts (fun hd => if_pos hd) (fun hd hk => ?_) (fun hd hk => ?_)
    (ih (.items depth ts) (by simp [Call.measure] at h ⊢; omega) (p + 1) (drop_succ_of_cons hts))
  · rw [if_neg hd, if_neg hk]
  · rw [if_neg hd, if_pos hk]
    cases Parser.items depth ts <;> rfl

private theorem items_follows (h : (Call.items depth ts).measure ≤ steps) :
    (Call.items depth ts).Follows s (steps + 1) p := by
  intro hts
  have hitem := ih (.item depth ts) (by simp [Call.measure] at h ⊢; omega) p hts
  cases ts with
  | nil =>
    rw [Parser.items, items, check_of_nil hts (by simp), check_of_nil hts (by simp)]
    rw [Parser.item] at hitem
    exact hitem.andThen_error
  | cons t ts =>
    rw [Parser.items, items]
    simp only [check_of_cons hts, advance_of_cons hts, current_of_cons hts, decide_eq_true_eq]
    have hlt := lt_of_cons hts
    by_cases hclose : t.kind = .closer .bracket
    · rw [if_pos hclose, if_pos hclose]
      exact .done_of _ (by omega) (drop_succ_of_cons hts)
    rw [if_neg hclose, if_neg hclose]
    by_cases hcomma : t.kind = .comma
    · rw [if_pos hcomma, if_pos hcomma, plain_widen]
      have hitems := ih (.items depth ts) (by simp [Call.measure] at h ⊢; omega) (p + 1)
        (drop_succ_of_cons hts)
      exact .mono (p + 1) (by omega) hitems
    rw [if_neg hcomma, if_neg hcomma]
    cases hm : Parser.item depth (t :: ts) with
    | error failure =>
      rw [hm] at hitem
      exact hitem.andThen_error
    | ok result =>
      obtain ⟨first, rest⟩ := result
      rw [hm] at hitem
      obtain ⟨q, -, hrest, hdone⟩ := hitem.exists_of_ok
      rw [hdone]
      dsimp only [Halt.andThen]
      refine afterItem_follows hrest (fun hn => by rw [hn]) (fun more hn => ?_)
        fun r more hle hmore => ih (.items depth more)
          (by have := rest.2; simp [Call.measure] at *; omega) r hmore
      rw [hn]
      dsimp only
      cases Parser.items depth more.1 <;> rfl

private theorem item_follows (h : (Call.item depth ts).measure ≤ steps) :
    (Call.item depth ts).Follows s (steps + 1) p := by
  intro hts
  have hvalue := ih (.value depth ts) (by simp [Call.measure] at h ⊢; omega) p hts
  cases ts with
  | nil =>
    rw [Parser.item, item, check_of_nil hts (by simp)]
    rwa [Parser.value] at hvalue
  | cons t ts =>
    rw [Parser.item, item]
    simp only [check_of_cons hts, advance_of_cons hts, current_of_cons hts, decide_eq_true_eq]
    by_cases hspread : t.kind = .spread
    · rw [if_pos hspread, if_pos hspread, plain_widen, plain_mapValue]
      have hlt := lt_of_cons hts
      have hinner := ih (.value depth ts) (by simp [Call.measure] at h ⊢; omega) (p + 1)
        (drop_succ_of_cons hts)
      exact .mono (p + 1) (by omega) (hinner.map fun inner =>
        Expr.dynamic ⟨t.span.start, inner.span.stop⟩ [inner])
    · rw [if_neg hspread, if_neg hspread]
      exact hvalue

private theorem value_follows (h : (Call.value depth ts).measure ≤ steps) :
    (Call.value depth ts).Follows s (steps + 1) p := by
  intro hts
  have hliteral := ih (.literal depth ts) (by simp [Call.measure] at h ⊢; omega) p hts
  cases ts with
  | nil =>
    have hdynamic := ih (.dynamic depth s.last.span.start []) (by simp [Call.measure] at h ⊢; omega)
      p (by simp) hts
    rw [Parser.literal] at hliteral
    rw [Parser.dynamic_nil] at hdynamic
    rw [Parser.value, value, current_of_nil hts]
    exact hliteral.orElse (s.dynamic steps depth _) hdynamic
  | cons t ts =>
    have hdynamic := ih (.dynamic depth t.span.start (t :: ts))
      (by simp [Call.measure] at h ⊢; omega) p (by simp) hts
    rw [Parser.value, value, current_of_cons hts]
    cases hl : Parser.literal depth (t :: ts) with
    | error failure =>
      rw [hl] at hliteral
      cases failure with
      | tooDeep start => exact hliteral.orElse_tooDeep
      | mismatch => exact hliteral.orElse (s.dynamic steps depth _) hdynamic
    | ok result =>
      obtain ⟨expr, rest⟩ := result
      rw [hl] at hliteral
      obtain ⟨q, hq, hrest, hdone⟩ := hliteral.exists_of_ok
      rw [hdone]
      dsimp only [Halt.orElse]
      rw [Option.isSome_none, if_neg Bool.false_ne_true, atValueEnd_eq hrest]
      dsimp only
      split
      · exact .done_of expr hq hrest
      · exact hdynamic

private theorem literal_follows (h : (Call.literal depth ts).measure ≤ steps) :
    (Call.literal depth ts).Follows s (steps + 1) p := by
  intro hts
  cases ts with
  | nil =>
    rw [Parser.literal, literal, current_of_nil hts, s.last_kind]
    exact .failed p
  | cons t ts =>
    have hlt := lt_of_cons hts
    have hread (expr : Expr) : s.Follows p (.ok (expr, ts)) (.done expr ⟨p + 1, none⟩) :=
      .done_of expr (by omega) (drop_succ_of_cons hts)
    rw [Parser.literal, literal, current_of_cons hts, advance_of_cons hts]
    cases hkind : t.kind with
    | opener delimiter =>
      cases delimiter with
      | brace =>
        exact ih (.object (depth + 1) (t :: ts)) (by simp [Call.measure] at h ⊢; omega) p
          (by simp) hts
      | bracket =>
        exact ih (.array (depth + 1) (t :: ts)) (by simp [Call.measure] at h ⊢; omega) p
          (by simp) hts
      | parenthesis =>
        simp only [Parser.constant?, hkind]
        exact .failed p
    | string value =>
      simp only [Parser.constant?, hkind]
      exact hread _
    | number value =>
      simp only [Parser.constant?, hkind]
      exact hread _
    | template value =>
      cases value with
      | none =>
        simp only [Parser.constant?, hkind]
        exact .failed p
      | some value =>
        simp only [Parser.constant?, hkind]
        exact hread _
    | _ =>
      simp only [Parser.constant?, hkind]
      exact .failed p

private theorem dynamic_follows {start : Nat} (h : (Call.dynamic depth start ts).measure ≤ steps) :
    (Call.dynamic depth start ts).Follows s (steps + 1) p := by
  intro hstart hts
  cases ts with
  | nil =>
    have hpos : steps ≠ 0 := by simp [Call.measure] at h; omega
    obtain ⟨steps, rfl⟩ := Nat.exists_eq_succ_of_ne_zero hpos
    rw [Parser.dynamic_nil, dynamic, run, current_of_nil hts, if_pos s.last_kind]
    dsimp only [Halt.andThen]
    rw [if_pos rfl]
    exact .failed p
  | cons t ts =>
    have hrun := ih (.run depth 0 t.span.start (t :: ts)) (by simp [Call.measure] at h ⊢; omega) p
      hts
    have hstop :
        Parser.run depth 0 t.span.start (t :: ts) = Parser.run depth 0 start (t :: ts) := by
      rcases hstart t rfl with rfl | hbrace
      · rfl
      · rw [Parser.run, Parser.run, if_pos hbrace, if_pos hbrace]
    rw [hstop] at hrun
    rw [Parser.dynamic, dynamic, current_of_cons hts]
    cases hr : Parser.run depth 0 start (t :: ts) with
    | error failure =>
      rw [hr] at hrun
      exact hrun.andThen_error
    | ok result =>
      obtain ⟨⟨found, stop⟩, left⟩ := result
      rw [hr] at hrun
      obtain ⟨q, hq, hleft, hdone⟩ := hrun.exists_of_ok
      rw [hdone]
      dsimp only [Halt.andThen]
      have hlt := lt_of_cons hts
      have hle := left.2
      have hlength := congrArg List.length hts
      have hlength' := congrArg List.length hleft
      rw [List.length_drop] at hlength hlength'
      dsimp only at hlength'
      split
      · rename_i hread
        rw [if_neg (by omega)]
        exact .done_of _ hq hleft
      · rename_i hread
        rw [if_pos (by omega)]
        exact .failed q

/-- At a brace the run goes on behind an object, or behind the brace where none is read. -/
theorem run_brace_follows {t : Token} {level stop : Nat}
    (h : (Call.run depth level stop (t :: ts)).measure ≤ steps)
    (hts : s.tokens.drop p = t :: ts) (hbrace : t.kind = .opener .brace) :
    s.Follows p (plain (Parser.run depth level stop (t :: ts)))
      (s.run (steps + 1) depth level stop ⟨p, none⟩) := by
  have hlt := lt_of_cons hts
  have hobject := ih (.object (depth + 1) (t :: ts)) (by simp [Call.measure] at h ⊢; omega) p
    (by simp) hts
  rw [Parser.run, run]
  simp only [current_of_cons hts]
  rw [if_neg (kind_ne_of_cons hts), if_pos hbrace, if_neg (by simp [hbrace, endsValue]),
    if_neg (by simp [hbrace]), if_pos hbrace]
  cases ho : Parser.object (depth + 1) (t :: ts) with
  | error failure =>
    rw [ho] at hobject
    cases failure with
    | tooDeep start => exact hobject.orElse_tooDeep
    | mismatch =>
      refine hobject.orElse
        (fun c => s.run steps depth (level + 1) t.span.stop (s.advance c)) ?_
      have hinside := ih (.run depth (level + 1) t.span.stop ts)
        (by simp [Call.measure] at h ⊢; omega) (p + 1) (drop_succ_of_cons hts)
      rw [advance_of_cons hts]
      refine .mono (p + 1) (by omega) ?_
      dsimp only
      cases hr : Parser.run depth (level + 1) t.span.stop ts <;> rwa [hr] at hinside
  | ok result =>
    obtain ⟨expr, rest⟩ := result
    rw [ho] at hobject
    obtain ⟨q, hq, hleft, hdone⟩ := hobject.exists_of_ok
    rw [hdone]
    dsimp only [Halt.orElse]
    have hothers := ih (.run depth level expr.span.stop rest.1)
      (by have := rest.2; simp [Call.measure] at *; omega) q hleft
    have hmapped := hothers.map fun others => (expr :: others.1, others.2)
    refine .mono q hq ?_
    cases hr : Parser.run depth level expr.span.stop rest.1 <;> rwa [hr] at hmapped

private theorem run_follows {level stop : Nat}
    (h : (Call.run depth level stop ts).measure ≤ steps) :
    (Call.run depth level stop ts).Follows s (steps + 1) p := by
  intro hts
  cases ts with
  | nil =>
    rw [Parser.run, run, current_of_nil hts, if_pos s.last_kind]
    exact .done_of _ (Nat.le_max_left _ _) hts
  | cons t ts =>
    by_cases hbrace : t.kind = .opener .brace
    · exact run_brace_follows ih h hts hbrace
    have hlt := lt_of_cons hts
    rw [Parser.run, run]
    simp only [current_of_cons hts, advance_of_cons hts]
    rw [if_neg (kind_ne_of_cons hts), if_neg hbrace]
    by_cases hend : level = 0 ∧ endsValue t.kind
    · rw [if_pos hend, if_pos hend]
      exact .done_of _ (by omega) hts
    rw [if_neg hend, if_neg hend]
    by_cases hsemicolon : level = 0 ∧ t.kind = .semicolon
    · rw [if_pos hsemicolon, if_pos hsemicolon]
      exact .failed p
    rw [if_neg hsemicolon, if_neg hsemicolon, if_neg hbrace]
    cases hlevel : levelAfter level t.kind with
    | none => exact absurd (Parser.endsValue_of_levelAfter hlevel) hend
    | some level' =>
      have hothers := ih (.run depth level' t.span.stop ts)
        (by simp [Call.measure] at h ⊢; omega) (p + 1) (drop_succ_of_cons hts)
      refine .mono (p + 1) (by omega) ?_
      dsimp only
      cases hr : Parser.run depth level' t.span.stop ts <;> rwa [hr] at hothers

theorem document_follows (h : (Call.roots ts).measure ≤ steps) :
    (Call.roots ts).Follows s (steps + 1) p := by
  intro hts
  cases ts with
  | nil =>
    rw [rootsOutcome, Parser.roots, document, check, current_of_nil hts, s.last_kind]
    exact .done_of _ (Nat.le_max_left _ _) hts
  | cons t ts =>
    have hlt := lt_of_cons hts
    have hrest := drop_succ_of_cons hts
    have hroots := ih (.roots ts) (by simp [Call.measure] at h ⊢; omega) (p + 1) hrest
    rw [document]
    simp only [check_of_cons hts, advance_of_cons hts, decide_eq_true_eq]
    rw [rootsOutcome, Parser.roots, if_neg (kind_ne_of_cons hts)]
    by_cases hbrace : t.kind = .opener .brace
    · rw [if_pos hbrace, if_pos hbrace]
      have hobject := ih (.object 0 (t :: ts)) (by simp [Call.measure] at h ⊢; omega) p (by simp)
        hts
      cases ho : Parser.object 0 (t :: ts) with
      | error failure =>
        rw [ho] at hobject
        cases failure with
        | tooDeep start => exact hobject.orElse_tooDeep
        | mismatch =>
          refine hobject.orElse (fun c => s.document steps (s.advance c)) ?_
          rw [advance_of_cons hts]
          exact .mono (p + 1) (by omega) hroots
      | ok result =>
        obtain ⟨expr, rest⟩ := result
        rw [ho] at hobject
        obtain ⟨q, hq, hleft, hdone⟩ := hobject.exists_of_ok
        rw [hdone]
        dsimp only [Halt.orElse]
        have hothers := ih (.roots rest.1)
          (by have := rest.2; simp [Call.measure] at *; omega) q hleft
        have hmapped := hothers.map fun others => expr :: others
        refine .mono q hq ?_
        rw [rootsOutcome] at hmapped
        cases hr : Parser.roots rest.1 <;> rwa [hr] at hmapped
    · rw [if_neg hbrace, if_neg hbrace]
      exact .mono (p + 1) (by omega) hroots

end

/-- Steps that exceed the measure of a call suffice. -/
theorem allFollow (s : Stream) (steps : Nat) : s.AllFollow steps := by
  induction steps with
  | zero => exact fun c hc => absurd hc (Nat.not_lt_zero _)
  | succ steps ih =>
    intro c hc p
    have hc := Nat.le_of_lt_succ hc
    cases c with
    | roots ts => exact document_follows ih hc
    | object depth ts => exact object_follows ih hc
    | members depth ts => exact members_follows ih hc
    | member depth ts => exact member_follows ih hc
    | method depth ts => exact method_follows ih hc
    | array depth ts => exact array_follows ih hc
    | items depth ts => exact items_follows ih hc
    | item depth ts => exact item_follows ih hc
    | value depth ts => exact value_follows ih hc
    | literal depth ts => exact literal_follows ih hc
    | dynamic depth start ts => exact dynamic_follows ih hc
    | run depth level stop ts => exact run_follows ih hc

end Stream
end DesignTokens.Script
