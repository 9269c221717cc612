import DesignTokens.Proofs.Markup.Placement
import DesignTokens.Validation

/-! # Reports on refused classes

Every refused class is reported once, in the order of the text, and where it stands. -/
namespace DesignTokens.Validator
open Markup (Placed Word)
open Text (Position)
open Validation (Finding Rejection Result)
variable {v : Validator} {text : List Char}

theorem reject?_eq_none_iff {word : Word} :
    v.reject? text word = none ↔ v.accepts word.text = true := by
  simp [reject?, accepts]

/-- There are no reports on words that are all accepted. -/
theorem isEmpty_filterMap_reject? (text : List Char) (words : List Word) :
    (words.filterMap (v.reject? text)).isEmpty = words.all fun word => v.accepts word.text := by
  rw [Bool.eq_iff_iff, List.isEmpty_iff, List.filterMap_eq_nil_iff, List.all_eq_true]
  exact forall₂_congr fun _ _ => reject?_eq_none_iff

/-- What is known of a report when its class and its place are known. -/
theorem map_reject? {β : Type} {f : Rejection → β} {g : Word → β}
    (h : ∀ (word : Word) (finding : Finding),
      f ⟨word.value, finding, Position.ofOffset text word.start⟩ = g word) (words : List Word) :
    (words.filterMap (v.reject? text)).map f =
      (words.filter fun word => !v.accepts word.text).map g := by
  induction words with
  | nil => rfl
  | cons word words ih =>
    cases hexamine : v.examine word.text with
    | none => simp [reject?, accepts, hexamine, ih]
    | some finding => simp [reject?, accepts, hexamine, ih, h word finding]

/-- A result reports on the words of a text that are refused. -/
structure Reports (v : Validator) (text : List Char) (words : List Word) (result : Result) :
    Prop where
  tokens : result.rejections.map Rejection.token =
    (words.filter fun word => !v.accepts word.text).map Word.value
  findings : ∀ r ∈ result.rejections, v.examine r.token.toList = some r.finding
  errors : result.errors = result.rejections.map Rejection.message
  increasing : (result.rejections.map Rejection.position).Pairwise Position.Before
  located : ∀ r ∈ result.rejections, ∃ behind,
    r.position.Marks text (r.token.toList ++ behind)

theorem reports_of_placed {words : List Word} (h : Placed 0 words text) {result : Result}
    (hresult : result.rejections = words.filterMap (v.reject? text)) :
    v.Reports text words result where
  tokens := by
    rw [hresult]
    exact map_reject? (fun _ _ => rfl) words
  findings r hr := by
    rw [hresult] at hr
    obtain ⟨word, -, hword⟩ := List.mem_filterMap.1 hr
    obtain ⟨finding, hfinding, rfl⟩ := Option.map_eq_some_iff.1 hword
    rwa [Word.value, String.toList_ofList]
  errors := rfl
  increasing := by
    rw [hresult, map_reject? (fun _ _ => rfl) words, List.pairwise_map]
    exact (h.sublist List.filter_sublist).pairwise_position []
  located r hr := by
    rw [hresult] at hr
    obtain ⟨word, hmem, hword⟩ := List.mem_filterMap.1 hr
    obtain ⟨finding, -, rfl⟩ := Option.map_eq_some_iff.1 hword
    rw [Word.value, String.toList_ofList]
    exact h.marks hmem

/-- Both checks report on all refused classes of their texts. -/
theorem checks_report (v : Validator) (source classes : String) :
    v.Reports source.toList (Markup.classes source.toList) (v.checkSource source) ∧
      v.Reports classes.toList (Markup.words classes.toList 0) (v.checkClasses classes) :=
  ⟨reports_of_placed (Markup.placed_classes source.toList) rfl,
    reports_of_placed (Markup.spaced_words classes.toList 0).placed rfl⟩

end DesignTokens.Validator
