import DesignTokens.Analysis
import DesignTokens.Proofs.Validation.Examination

/-! # Suggestions are accepted

A suggestion is the lead and the stem of a refused class in front of a token in effect. It is
accepted if the token is read from it as it was put into it. -/
namespace DesignTokens
open Utility (Entry Table Variants checkedStems extensions IsPlain colonLength)
open Text (Position)
open Validation (Rule Finding Rejection)

namespace Suggestion

private theorem mem_of_mem_nearest {target : List Char} {pool : List String} {limit : Nat}
    {s : String} (h : s ∈ nearest target pool limit) : s ∈ pool := by
  obtain ⟨ranked, hranked, rfl⟩ := List.mem_map.1 (List.mem_of_mem_take h)
  rw [List.mem_mergeSort] at hranked
  obtain ⟨candidate, hcandidate, rfl⟩ := List.mem_map.1 hranked
  exact hcandidate

end Suggestion

namespace Utility

/-- The entries with a rule are those of the checked stems. -/
theorem checked_of_ofEntry? {e : Entry} (he : e ∈ Table.standard.entries) {rule : Rule}
    (h : Rule.ofEntry? e = some rule) :
    (e.category = .colors ∧ e.name ∈ colorStems) ∨ (e.category = .spacing ∧ e.name ∈ spacingStems) ∨
      (e.category = .layout ∧ e.name ∈ sizingStems ++ borderSideStems) := by
  obtain ⟨⟨category, names⟩, hgroup, hentry⟩ := List.mem_flatMap.1 he
  obtain ⟨name, hname, rfl⟩ := List.mem_map.1 hentry
  have hstem := isStem_of_ofEntry? h
  rw [Rule.ofEntry?, if_pos hstem] at h
  simp only [List.mem_cons, Prod.mk.injEq, List.not_mem_nil, or_false] at hgroup
  rcases hgroup with ⟨rfl, rfl⟩ | ⟨rfl, rfl⟩ | ⟨rfl, rfl⟩ | ⟨rfl, rfl⟩ | ⟨rfl, rfl⟩
  · exact .inl ⟨rfl, hname⟩
  · exact .inr (.inl ⟨rfl, hname⟩)
  · refine .inr (.inr ⟨rfl, List.mem_append.2 ?_⟩)
    dsimp only at h
    by_cases hsizing : name ∈ sizingStems
    · exact .inl hsizing
    · rw [if_neg hsizing] at h
      by_cases hside : name ∈ borderSideStems
      · exact .inr hside
      · rw [if_neg hside] at h
        cases h
  · cases h
  · cases h

private theorem mem_checkedStems {e : Entry} (he : e ∈ Table.standard.entries) {rule : Rule}
    (h : Rule.ofEntry? e = some rule) : e.name ∈ checkedStems := by
  rw [checkedStems, List.mem_append, List.mem_append]
  rcases checked_of_ofEntry? he h with ⟨-, hname⟩ | ⟨-, hname⟩ | ⟨-, hname⟩
  · exact .inl (.inl hname)
  · exact .inl (.inr hname)
  · exact .inr hname

theorem category_eq {e : Entry} (he : e ∈ Table.standard.entries) {rule : Rule}
    (h : Rule.ofEntry? e = some rule) :
    e.category =
      if e.name ∈ colorStems then .colors else if e.name ∈ spacingStems then .spacing
      else .layout := by
  have hnodup := nodup_checkedStems
  rw [checkedStems, List.nodup_append, List.nodup_append] at hnodup
  obtain ⟨⟨-, -, hcolors⟩, -, hlayout⟩ := hnodup
  rcases checked_of_ofEntry? he h with ⟨hcategory, hname⟩ | ⟨hcategory, hname⟩ | ⟨hcategory, hname⟩
  · rw [if_pos hname, hcategory]
  · rw [if_neg fun hcolor => hcolors _ hcolor _ hname rfl, if_pos hname, hcategory]
  · rw [if_neg fun hcolor => hlayout _ (List.mem_append_left _ hcolor) _ hname rfl,
      if_neg fun hspacing => hlayout _ (List.mem_append_right _ hspacing) _ hname rfl, hcategory]

/-- No two entries have a rule for one stem. -/
theorem eq_of_name_eq {e e' : Entry} (he : e ∈ Table.standard.entries)
    (he' : e' ∈ Table.standard.entries) {rule rule' : Rule} (h : Rule.ofEntry? e = some rule)
    (h' : Rule.ofEntry? e' = some rule') (hname : e.name = e'.name) : e = e' := by
  have hcategory : e.category = e'.category := by
    rw [category_eq he h, category_eq he' h', hname]
  cases e
  cases e'
  cases hname
  cases hcategory
  rfl

end Utility

namespace Validator
variable {v : Validator}

/-- A token is read from a class as it was put into it, behind a lead and a stem. -/
structure ReadsBack (v : Validator) (lead : List Char) (stem : String) (rule : Rule)
    (key : String) : Prop where
  /-- The class is no arbitrary value. -/
  arbitrary : ¬ ('[' ∈ lead ++ key.toList ∧ ']' ∈ lead ++ key.toList)
  /-- The class is not cut inside the token. -/
  variants : v.stripVariants = true → colonLength 0 key.toList = 0
  /-- The token is not cut at an opacity. -/
  opacity : rule.family = .colors →
    (v.tokens.get .colors).contains (String.ofList (Validation.stripOpacity key.toList)) = true
  /-- The token does not turn the stem into a longer one. -/
  stem : ∀ longer ∈ extensions stem, ¬ longer.toList <+: stem.toList ++ key.toList

/-- A lead that was split off a class is split off any other class with it. -/
theorem split_append {text utility : List Char}
    (hcolon : v.stripVariants = true → colonLength 0 utility = 0)
    (hmark : utility.head? ≠ some '!') :
    v.split ((v.split text).lead ++ utility) = ⟨(v.split text).lead, utility⟩ := by
  cases hstrip : v.stripVariants with
  | true =>
    simp only [split, hstrip, if_true]
    exact Variants.split_append (Variants.isLead_split text) (hcolon hstrip) hmark
  | false =>
    simp only [split, hstrip]
    rfl

/-- The parts of a suggestion are those of the refused class, apart from the token. -/
theorem exists_of_examine {text : List Char} {f : Finding} (h : v.examine text = some f)
    {s : String} (hs : s ∈ f.suggestions) :
    ∃ lead e rule key, v.split text = ⟨lead, e.name.toList ++ f.value.toList⟩ ∧
      v.table.find? (e.name.toList ++ f.value.toList) = some e ∧ Rule.ofEntry? e = some rule ∧
      key ∈ (v.tokens.get rule.family).keys ∧ s = String.ofList lead ++ e.name ++ key := by
  rcases examine_cases h with ⟨-, rfl⟩ | ⟨-, lead, e, rule, value, hsplit, hfind, hrule, -, rfl⟩
  · cases hs
  · obtain ⟨key, hkey, rfl⟩ := List.mem_map.1 hs
    rw [← String.toList_ofList (l := value)] at hsplit hfind
    exact ⟨lead, e, rule, key, hsplit, hfind, hrule, Suggestion.mem_of_mem_nearest hkey, rfl⟩

/-- Behind a stem that is not turned into a longer one, no other entry has a rule. -/
theorem exists_entry {e : Entry} {rule : Rule} (he : e ∈ Table.standard.entries)
    (hrule : Rule.ofEntry? e = some rule) {key : List Char}
    (h : ∀ longer ∈ extensions e.name, ¬ longer.toList <+: e.name.toList ++ key) :
    ∃ e', Table.standard.find? (e.name.toList ++ key) = some e' ∧
      (Rule.ofEntry? e' = none ∨ e' = e) := by
  have hfits := Entry.fits_append (Utility.isStem_of_ofEntry? hrule) key
  obtain ⟨e', hfind⟩ := Table.exists_find? he hfits
  refine ⟨e', hfind, ?_⟩
  obtain ⟨he', hfits', hlongest⟩ := Table.longest_of_find? hfind
  cases hrule' : Rule.ofEntry? e' with
  | none => exact .inl rfl
  | some rule' =>
    refine .inr (Utility.eq_of_name_eq he' he hrule' hrule ?_)
    have hchecked := Utility.mem_checkedStems he hrule
    have hchecked' := Utility.mem_checkedStems he' hrule'
    have hprefix' := Entry.prefix_of_fits hfits'
    rcases List.prefix_or_prefix_of_prefix hprefix' (List.prefix_append e.name.toList key) with
      hprefix | hprefix
    · exact Utility.eq_of_prefix_of_size_le hprefix (hlongest e he hfits)
    · exact (Utility.mem_extensions hchecked hchecked' hprefix).resolve_right fun hlonger =>
        h _ hlonger hprefix'

private theorem accepts_of_find? {text utility : List Char} {lead : List Char} {e : Entry}
    (harbitrary : ¬ ('[' ∈ text ∧ ']' ∈ text)) (hsplit : v.split text = ⟨lead, utility⟩)
    (hfind : v.table.find? utility = some e)
    (h : ∀ rule, Rule.ofEntry? e = some rule →
      rule.accepts v.tokens (e.remainder utility) = true) :
    v.accepts text = true := by
  rw [accepts, examine_of_find? harbitrary hsplit hfind]
  cases hrule : Rule.ofEntry? e with
  | none => rfl
  | some rule =>
    rw [Option.bind_some, if_pos (h rule hrule)]
    rfl

namespace ReadsBack
variable {lead : List Char} {stem key : String} {rule : Rule}

theorem not_arbitrary (h : v.ReadsBack lead stem rule key) (hstem : stem ∈ checkedStems) :
    ¬ ('[' ∈ lead ++ (stem.toList ++ key.toList) ∧
      ']' ∈ lead ++ (stem.toList ++ key.toList)) := by
  have hplain := Utility.isPlain_of_mem_checkedStems hstem
  have hopen : '[' ∉ stem.toList := fun hc => (hplain _ hc).1 rfl
  have hclose : ']' ∉ stem.toList := fun hc => (hplain _ hc).2.1 rfl
  have := h.arbitrary
  simp only [List.mem_append] at this ⊢
  tauto

private theorem accepts_key (h : v.ReadsBack lead stem rule key)
    (hkey : key ∈ (v.tokens.get rule.family).keys) :
    rule.accepts v.tokens key.toList = true := by
  rw [Rule.accepts, Bool.or_eq_true]
  refine .inr ?_
  rw [Rule.target]
  cases hfamily : rule.family with
  | colors => exact h.opacity hfamily
  | spacing =>
    rw [hfamily] at hkey
    simpa using (OrderedMap.contains_iff _ key).2 hkey

end ReadsBack

/-- A suggestion is accepted if its token is read back. -/
theorem accepts_of_readsBack (htable : v.table = Table.standard) {e : Entry} {rule : Rule}
    (he : e ∈ v.table.entries) (hrule : Rule.ofEntry? e = some rule) {text : List Char}
    {key : String} (hkey : key ∈ (v.tokens.get rule.family).keys)
    (h : v.ReadsBack (v.split text).lead e.name rule key) :
    v.accepts ((v.split text).lead ++ (e.name.toList ++ key.toList)) = true := by
  rw [htable] at he
  have hchecked := Utility.mem_checkedStems he hrule
  have hsplit := @split_append v text _
    (fun hstrip => Utility.colonLength_stem_append hchecked _ (h.variants hstrip))
    (Utility.head?_append_ne_mark hchecked key.toList)
  obtain ⟨e', hfind, he'⟩ := exists_entry he hrule h.stem
  rw [← htable] at hfind
  refine accepts_of_find? (h.not_arbitrary hchecked) hsplit hfind fun rule' hrule' => ?_
  rcases he' with hnone | rfl
  · rw [hnone] at hrule'
    cases hrule'
  · rw [hrule] at hrule'
    cases hrule'
    rw [Entry.remainder_append (Utility.isStem_of_ofEntry? hrule)]
    exact h.accepts_key hkey

private theorem rejections_checkClasses (v : Validator) (classes : String) :
    (v.checkClasses classes).rejections =
      (Markup.words classes.toList 0).filterMap (v.reject? classes.toList) := rfl

theorem reject?_of_examine (text : List Char) (word : Markup.Word) {f : Finding}
    (h : v.examine word.text = some f) :
    v.reject? text word = some ⟨word.value, f, Position.ofOffset text word.start⟩ := by
  rw [reject?, h]
  rfl

theorem exists_of_reject? {text : List Char} {words : List Markup.Word} {r : Rejection}
    (h : r ∈ words.filterMap (v.reject? text)) :
    ∃ word : Markup.Word, r.token = word.value ∧ v.examine word.text = some r.finding := by
  obtain ⟨word, -, hword⟩ := List.mem_filterMap.1 h
  obtain ⟨f, hf, rfl⟩ := Option.map_eq_some_iff.1 hword
  exact ⟨word, rfl, hf⟩

/-- A suggestion puts a token in effect in the place of what follows the stem of a refused class,
and it is accepted if the token is read back. -/
theorem accepts_suggestion {a : Analysis} {options : Options} {text : String} {r : Rejection}
    (hr : r ∈ ((a.validator options).checkClasses text).rejections ∨
      r ∈ ((a.validator options).checkSource text).rejections)
    {s : String} (hs : s ∈ r.finding.suggestions) :
    ∃ lead e rule key,
      (a.validator options).split r.token.toList =
        ⟨lead, e.name.toList ++ r.finding.value.toList⟩ ∧
      Table.standard.find? (e.name.toList ++ r.finding.value.toList) = some e ∧
      Rule.ofEntry? e = some rule ∧ key ∈ (a.resolved.get rule.family).keys ∧
      s = String.ofList lead ++ e.name ++ key ∧
      ((a.validator options).ReadsBack lead e.name rule key →
        (a.validator options).accepts s.toList = true) := by
  obtain ⟨word, htoken, hexamine⟩ : ∃ word : Markup.Word, r.token = word.value ∧
      (a.validator options).examine word.text = some r.finding := by
    rcases hr with hr | hr
    · exact exists_of_reject? hr
    · exact exists_of_reject? hr
  have htext : r.token.toList = word.text := htoken ▸ String.toList_ofList
  obtain ⟨lead, e, rule, key, hsplit, hfind, hrule, hkey, rfl⟩ := exists_of_examine hexamine hs
  refine ⟨lead, e, rule, key, htext ▸ hsplit, hfind, hrule, hkey, rfl, fun hreads => ?_⟩
  have hlead : ((a.validator options).split word.text).lead = lead := congrArg Variants.lead hsplit
  have haccepts := accepts_of_readsBack rfl (Table.longest_of_find? hfind).1 hrule hkey
    (hlead.symm ▸ hreads)
  rw [hlead] at haccepts
  simpa [String.toList_append] using haccepts

/-- Tokens of which one is read back behind `bg-`, and none of the others. -/
def awkward : Families :=
  ⟨.ofList [("inky", "1"), ("ink/5", "2"), ("ink[2]", "3"), ("ink:bg-ink", "4")],
    .ofList [("x-1", "5")]⟩

def awkwardSource : String :=
  "module.exports=\x7btheme:\x7bcolors:\x7b'inky':'1','ink/5':'2','ink[2]':'3','ink:bg-ink':'4'"
    ++ "\x7d,spacing:\x7b'x-1':'5'\x7d\x7d\x7d"

def fourSuggestions : Options := { Options.standard with maxSuggestions := 4 }

def awkwardAnalysis : Analysis := ⟨none, ⟨awkward, ⟨.empty, .empty⟩⟩, awkward⟩

private theorem ofSource_awkwardSource :
    Analysis.ofSource awkwardSource "tailwind.config.js" fourSuggestions = .ok awkwardAnalysis := by
  have hextract : Declared.extract awkwardSource fourSuggestions =
      .ok ⟨awkward, ⟨.empty, .empty⟩⟩ := by
    decide +kernel
  rw [Analysis.ofSource, hextract]
  rfl

/-- What a class or a suggestion of these tokens may begin with. -/
def beginnings : List String :=
  ["", "b", "bg", "bg-", "bg-i", "bg-in", "bg-ink", "bg-ink/", "bg-ink/5", "g", "ga", "gap", "gap-",
    "gap-1", "gap-x", "gap-x-", "gap-x-1"]

/-- The entries that begin so. -/
def awkwardEntries : List Entry := [⟨.colors, "bg-"⟩, ⟨.spacing, "gap-"⟩, ⟨.spacing, "gap-x-"⟩]

private theorem mem_awkwardEntries : ∀ e ∈ Table.standard.entries, e.name ∈ beginnings →
    e ∈ awkwardEntries := by
  decide +kernel

theorem find?_awkward {utility : List Char} {e : Entry} (he : e ∈ Table.standard.entries)
    (hfits : e.fits utility = true) (hutility : utility.inits.map String.ofList ⊆ beginnings)
    (h : ∀ e' ∈ awkwardEntries, e'.fits utility = true →
      e' = e ∨ e'.name.utf8ByteSize < e.name.utf8ByteSize) :
    Table.standard.find? utility = some e := by
  refine Table.find?_eq_some he hfits fun e' he' hfits' => h e' ?_ hfits'
  refine mem_awkwardEntries e' he' (hutility (List.mem_map.2 ⟨e'.name.toList, ?_, ?_⟩))
  · exact (List.mem_inits _ _).2 (Entry.prefix_of_fits hfits')
  · exact String.ofList_toList

theorem find?_ink : Table.standard.find? ("bg-".toList ++ "ink".toList) = some ⟨.colors, "bg-"⟩ :=
  find?_awkward (by decide) (by decide) (by decide) (by decide)

/-- The validator of these tokens. -/
def awkwardValidator : Validator := awkwardAnalysis.validator fourSuggestions

def inkRejection : Rejection :=
  ⟨"bg-ink", ⟨"ink", .unknownColor, ["bg-inky", "bg-ink/5", "bg-ink[2]", "bg-ink:bg-ink"]⟩, ⟨1, 1⟩⟩

def gapRejection : Rejection := ⟨"gap-1", ⟨"1", .unknownSpacing, ["gap-x-1"]⟩, ⟨1, 8⟩⟩

theorem split_ink :
    awkwardValidator.split "bg-ink".toList = ⟨[], "bg-".toList ++ "ink".toList⟩ := by
  decide +kernel

private theorem reject?_ink :
    awkwardValidator.reject? "bg-ink gap-1".toList ⟨"bg-ink".toList, 0⟩ = some inkRejection := by
  have hrule : Rule.ofEntry? ⟨.colors, "bg-"⟩ = some .color := by decide
  have hsuggestions : awkwardValidator.suggestions [] ⟨.colors, "bg-"⟩ .color "ink".toList =
      inkRejection.finding.suggestions := by
    rw [suggestions, Suggestion.nearest, List.mergeSort_of_pairwise (by decide +kernel)]
    decide +kernel
  have hexamine := @examine_of_refused awkwardValidator "bg-ink".toList [] "ink".toList
    ⟨.colors, "bg-"⟩ .color (by decide) split_ink find?_ink hrule (by decide)
  rw [hsuggestions] at hexamine
  rw [reject?_of_examine _ ⟨"bg-ink".toList, 0⟩ hexamine]
  decide

private theorem reject?_gap :
    awkwardValidator.reject? "bg-ink gap-1".toList ⟨"gap-1".toList, 7⟩ = some gapRejection := by
  have hsplit : awkwardValidator.split "gap-1".toList = ⟨[], "gap-".toList ++ "1".toList⟩ := by
    decide +kernel
  have hfind : Table.standard.find? ("gap-".toList ++ "1".toList) = some ⟨.spacing, "gap-"⟩ :=
    find?_awkward (by decide) (by decide) (by decide) (by decide)
  have hrule : Rule.ofEntry? ⟨.spacing, "gap-"⟩ = some .spacing := by decide
  have hsuggestions : awkwardValidator.suggestions [] ⟨.spacing, "gap-"⟩ .spacing "1".toList =
      gapRejection.finding.suggestions := by
    rw [suggestions, Suggestion.nearest, List.mergeSort_of_pairwise (by decide +kernel)]
    decide +kernel
  have hexamine := @examine_of_refused awkwardValidator "gap-1".toList [] "1".toList
    ⟨.spacing, "gap-"⟩ .spacing (by decide) hsplit hfind hrule (by decide)
  rw [hsuggestions] at hexamine
  rw [reject?_of_examine _ ⟨"gap-1".toList, 7⟩ hexamine]
  decide

theorem rejections_awkward :
    (awkwardValidator.checkClasses "bg-ink gap-1").rejections = [inkRejection, gapRejection] := by
  have hwords : Markup.words "bg-ink gap-1".toList 0 =
      [⟨"bg-ink".toList, 0⟩, ⟨"gap-1".toList, 7⟩] := by
    decide +kernel
  rw [rejections_checkClasses, hwords, List.filterMap_cons_some reject?_ink,
    List.filterMap_cons_some reject?_gap, List.filterMap_nil]

theorem accepts_suggestion_inky :
    inkRejection ∈
        ((awkwardAnalysis.validator fourSuggestions).checkClasses "bg-ink gap-1").rejections ∧
      "bg-inky" ∈ inkRejection.finding.suggestions ∧
      (awkwardAnalysis.validator fourSuggestions).ReadsBack [] "bg-" .color "inky" ∧
      (awkwardAnalysis.validator fourSuggestions).accepts "bg-inky".toList = true := by
  have hreads : awkwardValidator.ReadsBack [] "bg-" .color "inky" :=
    ⟨by decide, fun _ => by decide, fun _ => by decide, by decide⟩
  have hr : inkRejection ∈ (awkwardValidator.checkClasses "bg-ink gap-1").rejections := by
    rw [rejections_awkward]
    exact List.mem_cons_self
  have hs : "bg-inky" ∈ inkRejection.finding.suggestions := List.mem_cons_self
  refine ⟨hr, hs, hreads, ?_⟩
  obtain ⟨lead, e, rule, key, hsplit, hfind, hrule, -, hkey, haccepts⟩ :=
    @accepts_suggestion awkwardAnalysis fourSuggestions _ _ (.inl hr) _ hs
  obtain ⟨rfl, hutility⟩ := Variants.mk.inj (split_ink.symm.trans hsplit)
  rw [← hutility] at hfind
  obtain rfl : ⟨.colors, "bg-"⟩ = e := Option.some.inj (find?_ink.symm.trans hfind)
  obtain rfl : Rule.color = rule := Option.some.inj hrule
  obtain rfl : "inky" = key := by
    simpa [← String.toList_inj, String.toList_append] using hkey
  exact haccepts hreads

/-- None of the other suggestions is accepted: one has an opacity, one is an arbitrary value, one is
cut at a colon, and one is of a longer stem. -/
theorem refuses_suggestions :
    Analysis.ofSource awkwardSource "tailwind.config.js" fourSuggestions = .ok awkwardAnalysis ∧
      ((awkwardAnalysis.validator fourSuggestions).checkClasses "bg-ink gap-1").rejections =
        [inkRejection, gapRejection] ∧
      ∀ s ∈ ["bg-ink/5", "bg-ink[2]", "bg-ink:bg-ink", "gap-x-1"],
        (s ∈ inkRejection.finding.suggestions ∨ s ∈ gapRejection.finding.suggestions) ∧
          (awkwardAnalysis.validator fourSuggestions).accepts s.toList = false := by
  have hcolor : Rule.ofEntry? ⟨.colors, "bg-"⟩ = some .color := by decide
  have hopacity : awkwardValidator.accepts "bg-ink/5".toList = false := by
    have hsplit : awkwardValidator.split "bg-ink/5".toList =
        ⟨[], "bg-".toList ++ "ink/5".toList⟩ := by
      decide +kernel
    have hfind : Table.standard.find? ("bg-".toList ++ "ink/5".toList) = some ⟨.colors, "bg-"⟩ :=
      find?_awkward (by decide) (by decide) (by decide) (by decide)
    exact refuses_of_examine (@examine_of_refused _ _ [] "ink/5".toList ⟨.colors, "bg-"⟩ .color
      (by decide) hsplit hfind hcolor (by decide))
  have harbitrary : awkwardValidator.accepts "bg-ink[2]".toList = false := by decide +kernel
  have hvariants : awkwardValidator.accepts "bg-ink:bg-ink".toList = false := by
    have hsplit : awkwardValidator.split "bg-ink:bg-ink".toList =
        ⟨"bg-ink:".toList, "bg-".toList ++ "ink".toList⟩ := by
      decide +kernel
    exact refuses_of_examine (@examine_of_refused _ _ _ "ink".toList ⟨.colors, "bg-"⟩ .color
      (by decide) hsplit find?_ink hcolor (by decide))
  have hstem : awkwardValidator.accepts "gap-x-1".toList = false := by
    have hsplit : awkwardValidator.split "gap-x-1".toList =
        ⟨[], "gap-x-".toList ++ "1".toList⟩ := by
      decide +kernel
    have hfind : Table.standard.find? ("gap-x-".toList ++ "1".toList) = some ⟨.spacing, "gap-x-"⟩ :=
      find?_awkward (by decide) (by decide) (by decide) (by decide)
    have hspacing : Rule.ofEntry? ⟨.spacing, "gap-x-"⟩ = some .spacing := by decide
    exact refuses_of_examine (@examine_of_refused _ _ [] "1".toList ⟨.spacing, "gap-x-"⟩ .spacing
      (by decide) hsplit hfind hspacing (by decide))
  refine ⟨ofSource_awkwardSource, rejections_awkward, ?_⟩
  simp only [List.forall_mem_cons]
  exact ⟨⟨by decide, hopacity⟩, ⟨by decide, harbitrary⟩, ⟨by decide, hvariants⟩,
    ⟨by decide, hstem⟩, by simp⟩

end Validator
end DesignTokens
