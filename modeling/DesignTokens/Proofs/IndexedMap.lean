import DesignTokens.IndexedMap
import DesignTokens.Proofs.Overlay
import Mathlib.Data.List.Induction
import Mathlib.Data.List.Nodup
import Mathlib.Data.String.Basic

/-! # The index of an ordered map

However a map is built, its index leads from every key to the entry of that key, and the entries are
those of the ordered map in which the same was inserted. -/
namespace DesignTokens
variable {α : Type}

/-- What insertions one after the other leave: every key where it was first inserted, with the value
that was inserted last. -/
def latest (pairs : List (String × α)) : List (String × α) :=
  (pairs.map Prod.fst).eraseDups.filterMap fun key =>
    (pairs.reverse.lookup key).map fun value => (key, value)

namespace OrderedMap

private theorem lookup_eq_idxOf? (es : List (String × α)) (key : String) :
    es.lookup key = ((es.map Prod.fst).idxOf? key).bind fun slot => es[slot]?.map Prod.snd := by
  induction es with
  | nil => rfl
  | cons e es ih =>
    obtain ⟨k, v⟩ := e
    rw [List.map_cons, List.idxOf?_cons, List.lookup_cons, ih]
    by_cases hk : k = key
    · subst hk
      simp
    · rw [beq_false_of_ne (Ne.symm hk), if_neg (by simpa using hk), Option.bind_map]
      rfl

/-- Distinct keys are each found where they stand. -/
theorem idxOf?_eq_some_iff {keys : List String} (hn : keys.Nodup) {key : String} {slot : Nat} :
    keys.idxOf? key = some slot ↔ keys[slot]? = some key := by
  rw [List.idxOf?_eq_some_iff, List.getElem?_eq_some_iff]
  constructor
  · rintro ⟨hlt, hkey, -⟩
    exact ⟨hlt, hkey⟩
  · rintro ⟨hlt, hkey⟩
    refine ⟨hlt, hkey, fun other hother hsame => ?_⟩
    have := (List.Nodup.getElem_inj_iff hn).1 (hsame.trans hkey.symm)
    omega

private theorem idxOf?_concat {keys : List String} {key : String} (h : key ∉ keys) (k : String) :
    (keys ++ [key]).idxOf? k = if key == k then some keys.length else keys.idxOf? k := by
  induction keys with
  | nil => simp [List.idxOf?_cons]
  | cons first rest ih =>
    rw [List.mem_cons, not_or] at h
    rw [List.cons_append, List.idxOf?_cons, List.idxOf?_cons, ih h.2]
    by_cases hk : key = k
    · subst hk
      simp [Ne.symm h.1]
    · simp [hk]

/-- The value of a known key is replaced in its slot. -/
theorem put_of_idxOf? {key : String} {es : List (String × α)} {slot : Nat}
    (h : (es.map Prod.fst).idxOf? key = some slot) (value : α) :
    put key value es = es.set slot (key, value) := by
  induction es generalizing slot with
  | nil => cases h
  | cons e es ih =>
    obtain ⟨k, v⟩ := e
    rw [List.map_cons, List.idxOf?_cons] at h
    by_cases hk : k = key
    · rw [if_pos (by simpa using hk)] at h
      obtain rfl := Option.some.inj h
      rw [put, if_pos hk, hk, List.set_cons_zero]
    · rw [if_neg (by simpa using hk)] at h
      obtain ⟨slot', hslot, rfl⟩ := Option.map_eq_some_iff.1 h
      rw [put, if_neg hk, ih hslot, List.set_cons_succ]

theorem ofList_concat (pairs : List (String × α)) (pair : String × α) :
    ofList (pairs ++ [pair]) = (ofList pairs).insert pair.1 pair.2 := by
  rw [ofList, insertAll, List.foldl_append]
  rfl

theorem ofList_append (pairs upper : List (String × α)) :
    ofList (pairs ++ upper) = (ofList pairs).insertAll upper :=
  List.foldl_append

theorem keys_ofList (pairs : List (String × α)) :
    (ofList pairs).keys = (pairs.map Prod.fst).eraseDups := by
  induction pairs using List.reverseRecOn with
  | nil => rfl
  | append_singleton pairs pair ih =>
    rw [ofList_concat, keys_insert, ih, List.map_append, List.eraseDups_append]
    by_cases hk : pair.1 ∈ pairs.map Prod.fst
    · rw [if_pos (List.mem_eraseDups.2 hk)]
      simp [List.removeAll, hk]
    · rw [if_neg (hk ∘ List.mem_eraseDups.1)]
      simp [List.removeAll, hk, List.eraseDups_cons]

theorem get?_ofList (pairs : List (String × α)) (key : String) :
    (ofList pairs).get? key = pairs.reverse.lookup key := by
  induction pairs using List.reverseRecOn with
  | nil => rfl
  | append_singleton pairs pair ih =>
    rw [ofList_concat, get?_insert, ih, List.reverse_append, List.reverse_singleton,
      List.singleton_append, List.lookup_cons]
    by_cases hk : key = pair.1
    · simp [hk]
    · simp [hk, beq_false_of_ne hk]

private theorem lookup_of_mem {es : List (String × α)} (hn : (es.map Prod.fst).Nodup)
    {e : String × α} (he : e ∈ es) : es.lookup e.1 = some e.2 := by
  obtain ⟨before, after, rfl⟩ := List.append_of_mem he
  refine List.lookup_eq_some_iff.2 ⟨before, after, rfl, fun p hp => ?_⟩
  rw [List.map_append, List.map_cons, List.nodup_append] at hn
  have hne : p.1 ≠ e.1 := hn.2.2 p.1 (List.mem_map_of_mem hp) e.1 List.mem_cons_self
  simpa using hne.symm

private theorem entries_eq_filterMap (m : OrderedMap α) :
    m.entries = m.keys.filterMap fun key => (m.get? key).map fun value => (key, value) := by
  have hsome : ∀ e ∈ m.entries, ((m.get? e.1).map fun value => (e.1, value)) = some e := by
    intro e he
    rw [get?, lookup_of_mem m.keys_nodup he]
    rfl
  rw [keys, List.filterMap_map]
  exact (List.filterMap_some.symm.trans (List.filterMap_congr hsome).symm)

/-- An ordered map holds what insertions leave. -/
theorem entries_ofList (pairs : List (String × α)) : (ofList pairs).entries = latest pairs := by
  rw [entries_eq_filterMap, keys_ofList]
  simp only [get?_ofList]
  rfl

example : (ofList [("a", 1), ("b", 2), ("a", 3)]).entries = [("a", 3), ("b", 2)] := by decide

private theorem overlay_self (m : OrderedMap α) : m.overlay m = m := by
  apply ext_get?
  · rw [keys_overlay]
    simp
  · intro key
    rw [get?_overlay, Option.or_self]

end OrderedMap

namespace IndexedMap

/-- An ordered map with the index of its keys. -/
def of (m : OrderedMap α) : IndexedMap α := ⟨m.entries.toArray, .ofList m.keys.zipIdx⟩

theorem index_of (m : OrderedMap α) (key : String) :
    (of m).index[key]? = m.keys.idxOf? key := by
  have hdistinct : m.keys.zipIdx.Pairwise fun a b => (a.1 == b.1) = false := by
    have hkeys : (m.keys.zipIdx.map Prod.fst).Pairwise fun a b => (a == b) = false := by
      rw [List.zipIdx_map_fst]
      exact m.keys_nodup.imp beq_false_of_ne
    rwa [List.pairwise_map] at hkeys
  cases h : m.keys.idxOf? key with
  | none =>
    apply Std.ExtHashMap.getElem?_ofList_of_contains_eq_false
    rw [List.zipIdx_map_fst]
    simpa using h
  | some slot =>
    obtain ⟨hlt, hkey, -⟩ := List.idxOf?_eq_some_iff.1 h
    apply Std.ExtHashMap.getElem?_ofList_of_mem (beq_self_eq_true key) hdistinct
    rw [List.mem_zipIdx_iff_getElem?, List.getElem?_eq_getElem hlt, hkey]

/-- What stands in the slot of a key. -/
theorem exists_entry {m : OrderedMap α} {key : String} {slot : Nat}
    (h : m.keys.idxOf? key = some slot) :
    ∃ value, m.get? key = some value ∧ m.entries[slot]? = some (key, value) := by
  obtain ⟨hlt, hkey, -⟩ := List.idxOf?_eq_some_iff.1 h
  have hlt' : slot < m.entries.length := by simpa [OrderedMap.keys] using hlt
  have hslot : m.entries[slot]? = some (key, m.entries[slot].2) := by
    rw [List.getElem?_eq_getElem hlt', ← hkey]
    simp [OrderedMap.keys]
  refine ⟨m.entries[slot].2, ?_, hslot⟩
  rw [OrderedMap.get?, OrderedMap.lookup_eq_idxOf?, ← OrderedMap.keys, h, Option.bind_some, hslot]
  rfl

theorem get?_eq_none {m : OrderedMap α} {key : String} (h : m.keys.idxOf? key = none) :
    m.get? key = none :=
  OrderedMap.lookup_eq_none (List.idxOf?_eq_none_iff.1 h)

private theorem get?_of (m : OrderedMap α) (key : String) : (of m).get? key = .ok (m.get? key) := by
  rw [get?, index_of]
  cases h : m.keys.idxOf? key with
  | none => rw [get?_eq_none h]
  | some slot =>
    obtain ⟨value, hvalue, hslot⟩ := exists_entry h
    obtain ⟨hlt, hentry⟩ := List.getElem?_eq_some_iff.1 hslot
    rw [hvalue]
    simp [of, hlt, hentry]

private theorem insert_new {m : IndexedMap α} {key : String} (h : m.index[key]? = none)
    (value : α) :
    m.insert key value =
      .ok (none, ⟨m.entries.push (key, value), m.index.insert key m.entries.size⟩) := by
  rw [insert, h]

private theorem insert_known {m : IndexedMap α} {key : String} {slot : Nat} {entry : String × α}
    (h : m.index[key]? = some slot) (he : m.entries[slot]? = some entry) (value : α) :
    m.insert key value =
      .ok (some entry.2, ⟨m.entries.setIfInBounds slot (entry.1, value), m.index⟩) := by
  obtain ⟨hlt, rfl⟩ := Array.getElem?_eq_some_iff.1 he
  rw [insert, h]
  simp [hlt, Array.setIfInBounds]

/-- An insertion into the entries and into the index is one into the ordered map. -/
theorem insert_of (m : OrderedMap α) (key : String) (value : α) :
    (of m).insert key value = .ok (m.get? key, of (m.insert key value)) := by
  cases h : m.keys.idxOf? key with
  | none =>
    have hnew : key ∉ m.keys := List.idxOf?_eq_none_iff.1 h
    have hindex : (of m).index.insert key (of m).entries.size =
        (of (m.insert key value)).index := by
      apply Std.ExtHashMap.ext_getElem?
      intro k
      rw [Std.ExtHashMap.getElem?_insert, index_of, index_of, OrderedMap.keys_insert, if_neg hnew,
        OrderedMap.idxOf?_concat hnew, OrderedMap.keys, List.length_map]
      rfl
    have hentries : (of m).entries.push (key, value) = (of (m.insert key value)).entries := by
      simp [of, OrderedMap.insert, OrderedMap.put_of_not_mem hnew]
    rw [insert_new ((index_of m key).trans h), hentries, hindex, get?_eq_none h]
  | some slot =>
    obtain ⟨previous, hvalue, hslot⟩ := exists_entry h
    have hkeys : (m.insert key value).keys = m.keys := by
      rw [OrderedMap.keys_insert, if_pos (List.isSome_idxOf?.1 (by rw [h]; rfl))]
    have hentries : (of m).entries.setIfInBounds slot (key, value) =
        (of (m.insert key value)).entries := by
      simp [of, OrderedMap.insert, OrderedMap.put_of_idxOf? h]
    have hindex : (of m).index = (of (m.insert key value)).index := by
      rw [of, of, hkeys]
    rw [insert_known ((index_of m key).trans h) (List.getElem?_toArray.trans hslot), hentries,
      hindex, hvalue]

theorem insertAll_of (m : OrderedMap α) (pairs : List (String × α)) :
    (of m).insertAll pairs = .ok (of (m.insertAll pairs)) := by
  induction pairs generalizing m with
  | nil => rfl
  | cons pair pairs ih =>
    rw [insertAll, List.foldlM_cons, insert_of]
    exact ih (m.insert pair.1 pair.2)

theorem of_empty : of (OrderedMap.empty : OrderedMap α) = empty := rfl

theorem ofList_eq (pairs : List (String × α)) :
    ofList pairs = .ok (of (OrderedMap.ofList pairs)) :=
  insertAll_of OrderedMap.empty pairs

theorem overlay_of (m other : OrderedMap α) :
    (of m).overlay (of other) = .ok (of (m.overlay other)) :=
  insertAll_of m other.entries

end IndexedMap

namespace Json
variable {β σ τ : Type}

namespace Outcome
variable {cs ds : List Char}

private theorem mapValue_mapValue (g : β → σ) (g' : σ → τ) (o : Outcome β cs) :
    (o.mapValue g).mapValue g' = o.mapValue (g' ∘ g) := by
  cases o <;> rfl

theorem mapValue_widen (h : ds.length ≤ cs.length) (g : σ → τ) (o : Outcome σ ds) :
    (o.widen h).mapValue g = (o.mapValue g).widen h := by
  cases o <;> rfl

end Outcome

namespace Reader

/-- Members take one state onwards as they take another one that it is turned into. -/
theorem membersFrom_mapValue (strictness : Strictness) {step : σ → String → Reader σ}
    {step' : τ → String → Reader τ} {g : σ → τ}
    (hstep : ∀ s key cs, step' (g s) key cs = (step s key cs).mapValue g) (s : σ)
    (cs : List Char) :
    membersFrom strictness step' (g s) cs = (membersFrom strictness step s cs).mapValue g := by
  rw [membersFrom, membersFrom]
  cases stringTail strictness cs with
  | error refusal => rfl
  | ok read =>
    obtain ⟨key, rest⟩ := read
    dsimp only
    rw [hstep]
    cases step s key rest.1 with
    | error refusal => rfl
    | ok taken =>
      obtain ⟨s', behind⟩ := taken
      simp only [Outcome.mapValue, Except.map]
      cases nextMember '\x7d' (· = '"') behind.1 with
      | error refusal => rfl
      | ok next =>
        cases next with
        | done last => rfl
        | member more =>
          have hm : more.1.length < cs.length :=
            Nat.lt_trans more.2 (Nat.lt_trans behind.2 rest.2)
          dsimp only
          rw [membersFrom_mapValue strictness hstep s' (more.1.drop 1)]
          exact (Outcome.mapValue_widen _ g _).symm
termination_by cs.length
decreasing_by simp; omega

private theorem members_mapValue (strictness : Strictness) {step : σ → String → Reader σ}
    {step' : τ → String → Reader τ} {g : σ → τ}
    (hstep : ∀ s key cs, step' (g s) key cs = (step s key cs).mapValue g) (s : σ)
    (cs : List Char) :
    members strictness step' (g s) cs = (members strictness step s cs).mapValue g := by
  rw [members, members, behindBlank, behindBlank, Outcome.mapValue_widen]
  congr 1
  generalize skipBlank cs = ds
  split
  · rfl
  · rfl
  · rw [membersFrom_mapValue strictness hstep, Outcome.mapValue_widen]
  · rfl

/-- An object is read alike into two kinds of state. -/
theorem visit_mapValue {take : σ → String → β → σ} {take' : τ → String → β → τ} {g : σ → τ}
    (htake : ∀ s key value, take' (g s) key value = g (take s key value)) (initial : σ)
    (entry : Shape β) (nesting : Nat) (cs : List Char) :
    visit (g initial) take' entry nesting cs =
      (visit initial take entry nesting cs).mapValue g := by
  have hstep (nesting : Nat) (s : σ) (key : String) (cs : List Char) :
      (behindColon (entry nesting) cs).mapValue (fun v => take' (g s) key v) =
        ((behindColon (entry nesting) cs).mapValue fun v => take s key v).mapValue g := by
    rw [Outcome.mapValue_mapValue]
    congr 1
    funext value
    exact htake s key value
  rw [visit, visit, behindBlank, behindBlank, Outcome.mapValue_widen]
  congr 1
  generalize skipBlank cs = ds
  split
  · rfl
  · rw [members_mapValue .kept (hstep _) initial, Outcome.mapValue_widen]
  · rfl

/-- The members of an object in the order of the text, those with the same key apart. -/
def pairs (entry : Shape β) : Shape (List (String × β)) :=
  visit [] (fun pairs key value => pairs ++ [(key, value)]) entry

end Reader
end Json

namespace IndexedMap

/-- A map that is read has the members of the text inserted in their order. -/
theorem shape_eq (entry : Json.Reader.Shape α) (nesting : Nat) (cs : List Char) :
    shape entry nesting cs = (Json.Reader.pairs entry nesting cs).mapValue ofList := by
  refine Json.Reader.visit_mapValue (g := ofList) (fun pairs key value => ?_) [] entry nesting cs
  rw [ofList_eq, ofList_eq, OrderedMap.ofList_concat, Except.bind, insert_of]
  rfl

/-- How a map comes about. -/
inductive Construction (α : Type)
  | empty
  | insert (c : Construction α) (key : String) (value : α)
  | overlay (c upper : Construction α)
  | ofList (pairs : List (String × α))
  /-- The object at the front of a text, in which so many containers may enclose one another. -/
  | read (entry : Json.Reader.Shape α) (nesting : Nat) (text : List Char)

/-- Why there is no map. -/
inductive Failure
  | refused (refusal : Json.Refusal)
  | outOfBounds (access : OutOfBounds)
  deriving Repr, DecidableEq

namespace Construction

/-- The map that is made, with every access to its entries checked. -/
def run : Construction α → Except Failure (IndexedMap α)
  | empty => .ok .empty
  | insert c key value =>
    c.run.bind fun m => ((m.insert key value).map Prod.snd).mapError .outOfBounds
  | overlay c upper =>
    c.run.bind fun m => upper.run.bind fun other => (m.overlay other).mapError .outOfBounds
  | ofList pairs => (IndexedMap.ofList pairs).mapError .outOfBounds
  | read entry nesting text =>
    match shape entry nesting text with
    | .error refusal => .error (.refused refusal)
    | .ok (result, _) => result.mapError .outOfBounds

/-- The pairs that are inserted into the map, in their order. -/
def inserted : Construction α → Except Json.Refusal (List (String × α))
  | empty => .ok []
  | insert c key value => c.inserted.map fun pairs => pairs ++ [(key, value)]
  | overlay c upper =>
    c.inserted.bind fun pairs => upper.inserted.map fun more => pairs ++ latest more
  | ofList pairs => .ok pairs
  | read entry nesting text => (Json.Reader.pairs entry nesting text).map Prod.fst

/-- A construction makes the map of all that is inserted. -/
theorem run_eq (c : Construction α) :
    c.run = (c.inserted.map fun pairs => of (OrderedMap.ofList pairs)).mapError .refused := by
  induction c with
  | empty => rfl
  | insert c key value ih =>
    rw [run, ih, inserted]
    cases c.inserted with
    | error refusal => rfl
    | ok pairs =>
      simp only [Except.map, Except.mapError, Except.bind, insert_of, OrderedMap.ofList_concat]
  | overlay c upper ih ih' =>
    rw [run, ih, ih', inserted]
    cases c.inserted with
    | error refusal => rfl
    | ok pairs =>
      cases upper.inserted with
      | error refusal => rfl
      | ok more =>
        simp only [Except.map, Except.mapError, Except.bind, overlay_of, OrderedMap.overlay,
          OrderedMap.ofList_append, OrderedMap.entries_ofList]
  | ofList pairs =>
    rw [run, ofList_eq]
    rfl
  | read entry nesting text =>
    rw [run, shape_eq, inserted]
    cases Json.Reader.pairs entry nesting text with
    | error refusal => rfl
    | ok read =>
      simp only [Json.Outcome.mapValue, Except.map, Except.mapError, ofList_eq]

/-- Nothing but a text that is refused keeps a construction from making a map. -/
theorem run_cases (c : Construction α) :
    (∃ refusal, c.run = .error (.refused refusal)) ∨ ∃ m : OrderedMap α, c.run = .ok (of m) := by
  rw [run_eq]
  cases c.inserted with
  | error refusal => exact .inl ⟨refusal, rfl⟩
  | ok pairs => exact .inr ⟨_, rfl⟩

section
variable (a b c : Construction α)
attribute [local simp] run Except.bind Except.mapError overlay_of

theorem run_overlay_assoc : (overlay (overlay a b) c).run = (overlay a (overlay b c)).run := by
  rcases a.run_cases with ⟨refusal, ha⟩ | ⟨x, ha⟩
  · simp [ha]
  rcases b.run_cases with ⟨refusal, hb⟩ | ⟨y, hb⟩
  · simp [ha, hb]
  rcases c.run_cases with ⟨refusal, hc⟩ | ⟨z, hc⟩
  · simp [ha, hb, hc]
  · simp [ha, hb, hc, OrderedMap.overlay_assoc]

theorem run_empty_overlay : (overlay empty a).run = a.run := by
  rcases a.run_cases with ⟨refusal, ha⟩ | ⟨x, ha⟩
  · simp [ha]
  · simp [ha, ← of_empty, OrderedMap.empty_overlay]

theorem run_overlay_empty : (overlay a empty).run = a.run := by
  rcases a.run_cases with ⟨refusal, ha⟩ | ⟨x, ha⟩
  · simp [ha]
  · simp [ha, ← of_empty, OrderedMap.overlay_empty]

theorem run_overlay_self : (overlay a a).run = a.run := by
  rcases a.run_cases with ⟨refusal, ha⟩ | ⟨x, ha⟩
  · simp [ha]
  · simp [ha, OrderedMap.overlay_self]

end

end Construction

/-- What is known of a map into which pairs were inserted one after the other. -/
structure Holds (m : IndexedMap α) (pairs : List (String × α)) : Prop where
  keys_nodup : m.keys.Nodup
  index (key : String) (slot : Nat) :
    m.index[key]? = some slot ↔ m.entries[slot]?.map Prod.fst = some key
  entries : m.entries.toList = latest pairs
  get (key : String) : m.get? key = .ok (pairs.reverse.lookup key)
  previous (key : String) (value : α) :
    (m.insert key value).map Prod.fst = .ok (pairs.reverse.lookup key)

private theorem holds_ofList (pairs : List (String × α)) :
    (of (OrderedMap.ofList pairs)).Holds pairs where
  keys_nodup := (OrderedMap.ofList pairs).keys_nodup
  index key slot := by
    have hn : (OrderedMap.ofList pairs).keys.Nodup := (OrderedMap.ofList pairs).keys_nodup
    rw [index_of, OrderedMap.idxOf?_eq_some_iff hn, OrderedMap.keys, List.getElem?_map, of,
      List.getElem?_toArray]
  entries := OrderedMap.entries_ofList pairs
  get key := by rw [get?_of, OrderedMap.get?_ofList]
  previous key value := by
    rw [insert_of, OrderedMap.get?_ofList]
    rfl

/-- A construction is refused for a text that it reads, or makes a map that holds what was inserted;
and overlaying is associative and idempotent, with the empty map as its unit. -/
theorem constructions_hold (a b c : Construction α) :
    (match a.inserted with
      | .error refusal => a.run = .error (.refused refusal)
      | .ok pairs => ∃ m, a.run = .ok m ∧ m.Holds pairs) ∧
    (Construction.overlay (.overlay a b) c).run = (Construction.overlay a (.overlay b c)).run ∧
    (Construction.overlay .empty a).run = a.run ∧
    (Construction.overlay a .empty).run = a.run ∧
    (Construction.overlay a a).run = a.run := by
  refine ⟨?_, a.run_overlay_assoc b c, a.run_empty_overlay, a.run_overlay_empty,
    a.run_overlay_self⟩
  have hrun := a.run_eq
  cases h : a.inserted with
  | error refusal => rwa [h] at hrun
  | ok pairs =>
    rw [h] at hrun
    exact ⟨_, hrun, holds_ofList pairs⟩

end IndexedMap
end DesignTokens
