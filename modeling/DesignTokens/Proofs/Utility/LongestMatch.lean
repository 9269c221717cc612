import DesignTokens.Proofs.Utility.Table

/-! # The entry that a table finds

Of the entries that match a utility the longest is found, and the first one of several that are as
long. Those have the same name, so that the order of a table decides on nothing but the category. -/
namespace DesignTokens.Utility

namespace Entry
variable {e e' : Entry} {utility : List Char}

/-- The name ends in a hyphen. -/
def EndsInHyphen (e : Entry) : Prop := ∃ front, e.name.toList = front ++ ['-']

/-- A stem matches what begins with it, and any other name matches nothing but itself. -/
inductive Matches (e : Entry) : List Char → Prop
  | stem (h : e.EndsInHyphen) (rest : List Char) : e.Matches (e.name.toList ++ rest)
  | whole (h : ¬ e.EndsInHyphen) : e.Matches e.name.toList

theorem isStem_iff : e.isStem = true ↔ e.EndsInHyphen := by
  rw [isStem, decide_eq_true_iff, List.getLast?_eq_some_iff, EndsInHyphen]

theorem fits_iff : e.fits utility = true ↔ e.Matches utility := by
  rw [fits]
  split
  · rename_i hstem
    rw [isStem_iff] at hstem
    rw [List.isPrefixOf_iff_prefix]
    constructor
    · rintro ⟨rest, rfl⟩
      exact .stem hstem rest
    · rintro (⟨-, rest⟩ | hwhole)
      · exact List.prefix_append _ _
      · exact absurd hstem hwhole
  · rename_i hwhole
    rw [isStem_iff] at hwhole
    rw [decide_eq_true_iff]
    constructor
    · rintro rfl
      exact .whole hwhole
    · rintro (⟨hstem, -⟩ | -)
      · exact absurd hstem hwhole
      · rfl

/-- The name and what follows it make up the utility. -/
theorem append_remainder (h : e.Matches utility) : e.name.toList ++ e.remainder utility = utility := by
  cases h with
  | stem hstem rest => rw [remainder_append (isStem_iff.2 hstem)]
  | whole hwhole =>
    rw [remainder, if_neg fun hstem => hwhole (isStem_iff.1 hstem), List.append_nil]

private theorem remainder_congr (h : e'.name = e.name) (utility : List Char) :
    e'.remainder utility = e.remainder utility := by
  rw [remainder, remainder, isStem, isStem, h]

theorem size_le_iff (h : e.Matches utility) (h' : e'.Matches utility) :
    e.name.utf8ByteSize ≤ e'.name.utf8ByteSize ↔ e.name.length ≤ e'.name.length :=
  size_le_iff_of_isPrefix (prefix_of_fits (fits_iff.2 h)) (prefix_of_fits (fits_iff.2 h'))

/-- Entries of one length that match one utility have one name: both begin it. -/
theorem name_eq_of_size_eq (h : e.Matches utility) (h' : e'.Matches utility)
    (hsize : e.name.utf8ByteSize = e'.name.utf8ByteSize) : e.name = e'.name := by
  rcases List.prefix_or_prefix_of_prefix (prefix_of_fits (fits_iff.2 h))
    (prefix_of_fits (fits_iff.2 h')) with hprefix | hprefix
  · exact eq_of_prefix_of_size_le hprefix hsize.ge
  · exact (eq_of_prefix_of_size_le hprefix hsize.le).symm

end Entry

namespace Table
variable {t t' : Table} {e e' : Entry} {utility : List Char}

theorem find?_eq_none_iff : t.find? utility = none ↔ ∀ e ∈ t.entries, ¬ e.Matches utility := by
  constructor
  · intro hnone e he hmatches
    obtain ⟨e', hfind⟩ := exists_find? he (Entry.fits_iff.2 hmatches)
    rw [hnone] at hfind
    cases hfind
  · intro hall
    rw [Option.eq_none_iff_forall_ne_some]
    intro e hfind
    obtain ⟨he, hfits, -⟩ := longest_of_find? hfind
    exact hall e he (Entry.fits_iff.1 hfits)

/-- An entry at a place of the table matches a utility, and every other one that matches it is
shorter, or it is as long and was registered later. -/
structure Chooses (t : Table) (utility : List Char) (e : Entry) : Prop where
  matched : e.Matches utility
  spelled : e.name.toList ++ e.remainder utility = utility
  exists_place : ∃ i : Nat, t.entries[i]? = some e ∧
    ∀ (j : Nat) (e' : Entry), t.entries[j]? = some e' → e'.Matches utility → j ≠ i →
      e'.name.utf8ByteSize < e.name.utf8ByteSize ∨
        e'.name.utf8ByteSize = e.name.utf8ByteSize ∧ i < j

theorem chooses_of_find? (h : t.find? utility = some e) : t.Chooses utility e := by
  obtain ⟨hfits, before, after, hentries, hbefore, hafter⟩ := find?_eq_some_iff.1 h
  have hmatches := Entry.fits_iff.1 hfits
  refine ⟨hmatches, Entry.append_remainder hmatches, before.length, by simp [hentries], ?_⟩
  intro j e' hj hmatches' hne
  have hfits' := Entry.fits_iff.2 hmatches'
  have hle := Entry.size_le_iff hmatches hmatches'
  have hge := Entry.size_le_iff hmatches' hmatches
  rw [hentries] at hj
  rcases Nat.lt_or_gt_of_ne hne with hlt | hgt
  · rw [List.getElem?_append_left hlt] at hj
    have hshorter := hbefore e' (List.mem_of_getElem? hj) hfits'
    omega
  · obtain ⟨k, rfl⟩ := Nat.exists_eq_add_of_lt hgt
    have hk : after[k]? = some e' := by
      rw [Nat.add_assoc, List.getElem?_append_right (Nat.le_add_right _ _)] at hj
      simpa using hj
    have hnoLonger := hafter e' (List.mem_of_getElem? hk) hfits'
    omega

/-- What is found in another order is as long, and so it has the same name. -/
theorem name_eq_of_perm (hperm : t'.entries.Perm t.entries) (h : t.find? utility = some e)
    (h' : t'.find? utility = some e') : e'.name = e.name := by
  obtain ⟨he, hfits, hlongest⟩ := longest_of_find? h
  obtain ⟨he', hfits', hlongest'⟩ := longest_of_find? h'
  have hle := hlongest e' (hperm.mem_iff.1 he') hfits'
  have hge := hlongest' e (hperm.mem_iff.2 he) hfits
  exact Entry.name_eq_of_size_eq (Entry.fits_iff.1 hfits') (Entry.fits_iff.1 hfits)
    (Nat.le_antisymm hle hge)

theorem find?_eq_none_iff_of_perm (hperm : t'.entries.Perm t.entries) :
    t'.find? utility = none ↔ t.find? utility = none := by
  simp only [find?_eq_none_iff, hperm.mem_iff]

private theorem map_find?_of_perm (hperm : t'.entries.Perm t.entries) (utility : List Char) :
    (t'.find? utility).map (fun e => (e.name, e.remainder utility)) =
      (t.find? utility).map fun e => (e.name, e.remainder utility) := by
  cases h : t.find? utility with
  | none => rw [(find?_eq_none_iff_of_perm hperm).2 h]
  | some e =>
    cases h' : t'.find? utility with
    | none =>
      rw [find?_eq_none_iff_of_perm hperm, h] at h'
      cases h'
    | some e' =>
      have hname := name_eq_of_perm hperm h h'
      rw [Option.map_some, Option.map_some, hname, Entry.remainder_congr hname]

/-- A table finds an entry for each utility that some entry matches: the longest one, and the first
of those. Its order is of no account but for the category among entries of one name. -/
theorem finds_first_longest (t : Table) (utility : List Char) :
    (t.find? utility = none ↔ ∀ e ∈ t.entries, ¬ e.Matches utility) ∧
      (∀ e, t.find? utility = some e → t.Chooses utility e) ∧
      ∀ t' : Table, t'.entries.Perm t.entries →
        (t'.find? utility).map (fun e => (e.name, e.remainder utility)) =
            (t.find? utility).map (fun e => (e.name, e.remainder utility)) ∧
          ∀ e e', t.find? utility = some e → t'.find? utility = some e' →
            e'.category ≠ e.category → e ∈ t.entries ∧ e' ∈ t.entries ∧ e'.name = e.name := by
  refine ⟨find?_eq_none_iff, fun e => chooses_of_find?, fun t' hperm => ?_⟩
  refine ⟨map_find?_of_perm hperm utility, fun e e' h h' _ => ⟨?_, ?_, name_eq_of_perm hperm h h'⟩⟩
  · exact (longest_of_find? h).1
  · exact hperm.mem_iff.1 (longest_of_find? h').1

/-- A stem that is registered twice. -/
def twice : Table := ⟨[⟨.typography, "é-"⟩, ⟨.colors, "é-"⟩]⟩

/-- The same in the other order. -/
def twiceReversed : Table := ⟨[⟨.colors, "é-"⟩, ⟨.typography, "é-"⟩]⟩

theorem finds_first_longest_twice :
    twice.find? "é-x".toList = some ⟨.typography, "é-"⟩ ∧
      twiceReversed.find? "é-x".toList = some ⟨.colors, "é-"⟩ ∧
      twice.Chooses "é-x".toList ⟨.typography, "é-"⟩ ∧
      twiceReversed.entries.Perm twice.entries ∧
      (⟨.typography, "é-"⟩ : Entry) ∈ twice.entries ∧ (⟨.colors, "é-"⟩ : Entry) ∈ twice.entries := by
  have hfind : twice.find? "é-x".toList = some ⟨.typography, "é-"⟩ := by decide
  have hreversed : twiceReversed.find? "é-x".toList = some ⟨.colors, "é-"⟩ := by decide
  have hperm : twiceReversed.entries.Perm twice.entries := .swap _ _ _
  obtain ⟨-, hchooses, horder⟩ := finds_first_longest twice "é-x".toList
  obtain ⟨hmem, hmem', -⟩ := (horder _ hperm).2 _ _ hfind hreversed (by decide)
  exact ⟨hfind, hreversed, hchooses _ hfind, hperm, hmem, hmem'⟩

end Table
end DesignTokens.Utility
