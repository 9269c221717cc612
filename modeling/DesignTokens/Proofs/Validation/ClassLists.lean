import DesignTokens.Proofs.Markup.PlainValues
import DesignTokens.Proofs.Validation.Reports

/-! # A class list as an attribute

A class list without a double quote is checked alike by itself and as the value of an attribute. -/
namespace DesignTokens
open Text (Position utf8Length)
open Markup (Attribute Atom Piece Quoting Word)
open Validation (Rejection)

namespace Text.Position

/-- A position in a text that begins `k` columns later: only the first line is shifted. -/
def indented (k : Nat) (p : Position) : Position :=
  if p.line = 1 then ⟨p.line, p.column + k⟩ else p

@[simp] theorem line_indented (k : Nat) (p : Position) : (p.indented k).line = p.line := by
  unfold indented
  split <;> rfl

private theorem indented_advance {p : Position} (h : 0 < p.line) (k : Nat) (c : Char) :
    (p.advance c).indented k = (p.indented k).advance c := by
  by_cases hc : c = '\n'
  · have hline : p.line + 1 ≠ 1 := by omega
    rw [advance, if_pos hc, advance, if_pos hc, line_indented, indented, if_neg hline]
  · by_cases hline : p.line = 1
    · simp [advance, indented, hc, hline, Nat.add_right_comm]
    · simp [advance, indented, hc, hline]

theorem indented_foldl {p : Position} (h : 0 < p.line) (k : Nat) (cs : List Char) :
    (cs.foldl advance p).indented k = cs.foldl advance (p.indented k) := by
  induction cs generalizing p with
  | nil => rfl
  | cons c cs ih =>
    have hline : 0 < (p.advance c).line := by
      unfold advance
      split
      · exact Nat.succ_pos _
      · exact h
    rw [List.foldl_cons, List.foldl_cons, ih hline, indented_advance h]

end Text.Position

/-- A report on a class of a text that begins `k` columns later. -/
def Validation.Rejection.indented (k : Nat) (r : Rejection) : Rejection :=
  { r with position := r.position.indented k }

namespace Validator

/-- What stands in front of the class list. -/
def classLead : List Char := "class=\"".toList

/-- A class list in an attribute. -/
def classAttribute (classes : String) : String := "class=\"" ++ classes ++ "\""

theorem isLead_classLead : Markup.IsLead "class" ⟨'"', false⟩ classLead :=
  ⟨.inl rfl, rfl, [], false, [], Markup.areBlank_nil, .blank Markup.areBlank_nil, rfl, rfl⟩

/-- The attribute that a class list stands in. -/
def listAttribute (cs : List Char) : Attribute := ⟨"class", 7, cs.map .ofChar⟩

theorem value_listAttribute (cs : List Char) : (listAttribute cs).value = cs :=
  Markup.flatMap_text_ofChar cs

section
variable {v : Validator} {cs : List Char}

/-- The attribute is found, and nothing else. -/
theorem segments_classAttribute (h : '"' ∉ cs) :
    Markup.segments (classLead ++ (cs ++ ['"'])) =
      [.plain classLead, .value (listAttribute cs), .plain ['"']] := by
  have hsighting := isLead_classLead.sighting?_plain (.inl rfl) h []
  rw [Markup.segments, Markup.segmentsFrom_value hsighting,
    Markup.segmentsFrom_of_ne (by decide), Markup.segmentsFrom_nil]
  rfl

theorem attributes_classAttribute (h : '"' ∉ cs) :
    Markup.attributes (classLead ++ (cs ++ ['"'])) = [listAttribute cs] := by
  rw [Markup.attributes, segments_classAttribute h]
  rfl

theorem pieces_listAttribute (h : '"' ∉ cs) :
    (listAttribute cs).pieces = ((Markup.words cs 0).map (Word.later 7)).map Piece.name := by
  have hmem : listAttribute cs ∈ Markup.attributes (classLead ++ (cs ++ ['"'])) := by
    rw [attributes_classAttribute h]
    exact List.mem_cons_self
  have hquoted : (listAttribute cs).IsQuotedIn (classLead ++ (cs ++ ['"'])) ⟨'"', false⟩ :=
    ⟨[], classLead, [], by rw [value_listAttribute]; rfl, isLead_classLead, rfl⟩
  rw [Attribute.pieces_eq_words hmem hquoted (.inl rfl), value_listAttribute, ← Markup.words_later]
  rfl

private theorem classes_classAttribute (h : '"' ∉ cs) :
    Markup.classes (classLead ++ (cs ++ ['"'])) = (Markup.words cs 0).map (Word.later 7) := by
  rw [Markup.classes, attributes_classAttribute h, List.flatMap_singleton, Attribute.words,
    pieces_listAttribute h, List.filterMap_map]
  exact List.filterMap_some

/-- A word is reported alike in both texts, but for its column in the first line. -/
theorem reject?_later {w : Word} (hw : w ∈ Markup.words cs 0) :
    v.reject? (classLead ++ (cs ++ ['"'])) (w.later 7) =
      (v.reject? cs w).map (Rejection.indented 7) := by
  obtain ⟨front, behind, hcs, hstart⟩ := (Markup.spaced_words cs 0).placed.exists_front hw
  rw [Nat.zero_add] at hstart
  have hinside : Position.ofOffset cs w.start = front.foldl Position.advance ⟨1, 1⟩ :=
    Position.ofOffset_eq hcs hstart
  have hlater : Position.ofOffset (classLead ++ (cs ++ ['"'])) (w.later 7).start =
      (classLead ++ front).foldl Position.advance ⟨1, 1⟩ := by
    have hsource : classLead ++ (cs ++ ['"']) =
        (classLead ++ front) ++ (w.text ++ (behind ++ ['"'])) := by simp [hcs]
    have hoffset : (w.later 7).start = utf8Length (classLead ++ front) := by
      rw [Text.utf8Length_append, ← hstart]
      rfl
    exact Position.ofOffset_eq hsource hoffset
  have hposition : Position.ofOffset (classLead ++ (cs ++ ['"'])) (w.later 7).start =
      (Position.ofOffset cs w.start).indented 7 := by
    rw [hlater, hinside, Position.indented_foldl Nat.one_pos, List.foldl_append]
    rfl
  rw [reject?, reject?, Option.map_map, hposition]
  rfl

private theorem rejections_classAttribute (h : '"' ∉ cs) :
    (Markup.classes (classLead ++ (cs ++ ['"']))).filterMap
        (v.reject? (classLead ++ (cs ++ ['"']))) =
      ((Markup.words cs 0).filterMap (v.reject? cs)).map (Rejection.indented 7) := by
  rw [classes_classAttribute h, List.filterMap_map, List.map_filterMap]
  exact List.filterMap_congr fun w hw => reject?_later hw

/-- The value without the refused classes is the class list without them. -/
theorem cleaned_listAttribute (h : '"' ∉ cs) :
    v.cleaned (.value (listAttribute cs)) =
      if (Markup.words cs 0).all fun word => v.accepts word.text then cs
      else joined (((Markup.words cs 0).filter fun word => v.accepts word.text).map Word.text) := by
  rw [cleaned, pieces_listAttribute h, value_listAttribute, List.all_map, List.all_map,
    List.filter_map, List.filter_map, List.map_map, List.map_map]
  rfl

end

/-- A class list is checked by itself as it is in an attribute. -/
structure ChecksAlike (v : Validator) (classes : String) : Prop where
  rejections : (v.checkSource (classAttribute classes)).rejections =
    (v.checkClasses classes).rejections.map (Rejection.indented 7)
  untouched : (v.checkClasses classes).isValid = true →
    (v.checkSource (classAttribute classes)).code = classAttribute classes
  rewritten : (v.checkClasses classes).isValid = false →
    (v.checkSource (classAttribute classes)).code = classAttribute (v.checkClasses classes).code

theorem toList_classAttribute (classes : String) :
    (classAttribute classes).toList = classLead ++ (classes.toList ++ ['"']) := by
  rw [classAttribute, String.toList_append, String.toList_append, List.append_assoc]
  rfl

/-- A class list is valid if all of its words are accepted. -/
theorem isValid_checkClasses (v : Validator) (classes : String) :
    (v.checkClasses classes).isValid =
      (Markup.words classes.toList 0).all fun word => v.accepts word.text :=
  isEmpty_filterMap_reject? _ _

theorem code_classAttribute (v : Validator) {classes : String} (h : '"' ∉ classes.toList) :
    (v.checkSource (classAttribute classes)).code =
      if (v.checkClasses classes).isValid then classAttribute classes
      else classAttribute (v.checkClasses classes).code := by
  rw [← String.toList_inj, checkSource, String.toList_ofList, toList_classAttribute,
    segments_classAttribute h, List.flatMap_cons, List.flatMap_cons, List.flatMap_singleton,
    cleaned_listAttribute h, ← isValid_checkClasses]
  split
  · rw [toList_classAttribute]
    rfl
  · rw [toList_classAttribute, checkClasses, String.toList_ofList]
    rfl

theorem checksAlike (v : Validator) {classes : String} (h : '"' ∉ classes.toList) :
    v.ChecksAlike classes where
  rejections := by
    rw [checkSource, toList_classAttribute]
    exact rejections_classAttribute h
  untouched hvalid := by rw [code_classAttribute v h, if_pos hvalid]
  rewritten hinvalid := by rw [code_classAttribute v h, if_neg (by simp [hinvalid])]

/-- The pieces of a plain value are its words, as a class list is cut by itself. A class list
without a double quote is thus checked alike by itself and in an attribute. -/
theorem plain_values_alike :
    (∀ source, ∀ a ∈ Markup.attributes source, ∃ q, a.IsQuotedIn source q ∧
      (∀ q', a.IsQuotedIn source q' → q' = q) ∧
      (q.IsPlain a.value → a.pieces = (Markup.words a.value a.start).map Piece.name)) ∧
    ∀ (v : Validator) (classes : String), '"' ∉ classes.toList → v.ChecksAlike classes := by
  refine ⟨fun source a ha => ?_, fun v classes => v.checksAlike⟩
  obtain ⟨q, hq, -⟩ := Markup.Attribute.exists_isQuotedIn ha
  exact ⟨q, hq, fun q' hq' => hq'.unique hq, Markup.Attribute.pieces_eq_words ha hq⟩

/-- A template in braces. -/
def templateSource : List Char := "class=\x7b`p-1 é`\x7d".toList

def templateAttribute : Attribute := ⟨"class", 8, "p-1 é".toList.map .ofChar⟩

theorem plain_values_alike_template :
    templateAttribute ∈ Markup.attributes templateSource ∧
      templateAttribute.IsQuotedIn templateSource ⟨'`', true⟩ ∧
      Quoting.IsPlain ⟨'`', true⟩ templateAttribute.value ∧
      templateAttribute.pieces = [.name ⟨"p-1".toList, 8⟩, .name ⟨"é".toList, 12⟩] ∧
      '"' ∉ "p-1\nm-[2]".toList ∧ (standard .empty).ChecksAlike "p-1\nm-[2]" := by
  have hlead : Markup.IsLead "class" ⟨'`', true⟩ "class=\x7b`".toList :=
    ⟨.inl rfl, rfl, [], true, [] ++ '\x7b' :: [], Markup.areBlank_nil,
      .brace Markup.areBlank_nil Markup.areBlank_nil, rfl, rfl⟩
  have hplain : Quoting.IsPlain ⟨'`', true⟩ templateAttribute.value := .inr (by decide)
  have hsighting := hlead.sighting?_plain hplain (by decide) ['\x7d']
  have hmem : templateAttribute ∈ Markup.attributes templateSource := by
    have hvalue := Markup.segmentsFrom_value hsighting 0
    rw [Markup.attributes, Markup.segments]
    exact hvalue ▸ List.mem_cons_self
  have hquoted : templateAttribute.IsQuotedIn templateSource ⟨'`', true⟩ :=
    ⟨[], "class=\x7b`".toList, ['\x7d'], by decide, hlead, by decide⟩
  have hquotes : '"' ∉ "p-1\nm-[2]".toList := by decide
  obtain ⟨q, -, hunique, hpieces⟩ := plain_values_alike.1 templateSource templateAttribute hmem
  obtain rfl := hunique _ hquoted
  exact ⟨hmem, hquoted, hplain, hpieces hplain, hquotes, plain_values_alike.2 _ _ hquotes⟩

end Validator
end DesignTokens
