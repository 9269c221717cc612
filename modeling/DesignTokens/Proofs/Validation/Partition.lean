import DesignTokens.Proofs.Markup.PlainValues
import DesignTokens.Proofs.Validation.Extension
import DesignTokens.Proofs.Validation.Reports

/-! # What becomes of the classes of a class list

Each class is kept or reported, in the order of the list. What is kept is left as it is by another
check, and a list is checked class by class, so that two lists with a space between them are checked
as each is by itself. -/
namespace DesignTokens
open Markup (Word words wordsFrom)
open Validation (Finding Rejection)

/-- A list is made up of two others, each of them in its order. -/
inductive Interleaves {α : Type} : List α → List α → List α → Prop
  | nil : Interleaves [] [] []
  | left {xs ys zs : List α} (a : α) (h : Interleaves xs ys zs) : Interleaves (a :: xs) ys (a :: zs)
  | right {xs ys zs : List α} (a : α) (h : Interleaves xs ys zs) : Interleaves xs (a :: ys) (a :: zs)

theorem interleaves_filter {α : Type} (p : α → Bool) (xs : List α) :
    Interleaves (xs.filter p) (xs.filter fun a => !p a) xs := by
  induction xs with
  | nil => exact .nil
  | cons a xs ih =>
    cases ha : p a with
    | true => simpa [ha] using ih.left a
    | false => simpa [ha] using ih.right a

/-- The classes of a class list. -/
def Markup.classNames (classes : String) : List String := (words classes.toList 0).map Word.value

open Markup (classNames)

theorem Markup.Word.toList_value (w : Word) : w.value.toList = w.text := String.toList_ofList

/-- A space between two lists is no part of a class. -/
theorem Markup.classNames_append (classes more : String) :
    classNames (classes ++ " " ++ more) = classNames classes ++ classNames more := by
  have htext : (classes ++ " " ++ more).toList = classes.toList ++ ' ' :: more.toList := by
    simp [String.toList_append]
  have hvalue (k : Nat) : Word.value ∘ Word.later k = Word.value := rfl
  rw [classNames, htext, words, wordsFrom_append_blank (by decide), List.map_append]
  refine congrArg _ ?_
  rw [← words, words_later, List.map_map, hvalue, classNames]

/-- A report without the place of its class. -/
def Validation.Rejection.unplaced (r : Rejection) : String × Finding := (r.token, r.finding)

namespace Validator
variable {v : Validator} {classes : String}

theorem classNames_code (v : Validator) (classes : String) :
    classNames (v.checkClasses classes).code =
      (classNames classes).filter fun name => v.accepts name.toList := by
  rw [classNames, value_words_checkClasses, classNames, List.filter_map]
  simp only [Function.comp_def, Word.toList_value]

theorem token_rejections (v : Validator) (classes : String) :
    (v.checkClasses classes).rejections.map Rejection.token =
      (classNames classes).filter fun name => !v.accepts name.toList := by
  rw [checkClasses, @map_reject? v _ _ _ Word.value fun _ _ => rfl, classNames, List.filter_map]
  simp only [Function.comp_def, Word.toList_value]

/-- The report on a class, wherever it stands. -/
def report? (v : Validator) (name : String) : Option (String × Finding) :=
  (v.examine name.toList).map fun finding => (name, finding)

/-- Each class is reported on by itself. -/
theorem unplaced_rejections (v : Validator) (classes : String) :
    (v.checkClasses classes).rejections.map Rejection.unplaced =
      (classNames classes).filterMap v.report? := by
  rw [checkClasses, List.map_filterMap, classNames, List.filterMap_map]
  refine List.filterMap_congr fun word _ => ?_
  rw [reject?, Option.map_map, Function.comp_apply, report?, Word.toList_value]
  rfl

private theorem checkClasses_of_accepted
    (h : ∀ word ∈ words classes.toList 0, v.accepts word.text = true) :
    v.checkClasses classes = ⟨String.ofList (joined ((words classes.toList 0).map Word.text)), []⟩ := by
  have hkept : (words classes.toList 0).filter (fun word => v.accepts word.text) =
      words classes.toList 0 := List.filter_eq_self.2 h
  have hnone : (words classes.toList 0).filterMap (v.reject? classes.toList) = [] :=
    List.filterMap_eq_nil_iff.2 fun word hword => reject?_eq_none_iff.2 (h word hword)
  rw [checkClasses, hkept, hnone]

/-- What is left of a class list is accepted as it is: its words are those that were kept. -/
theorem checkClasses_code (v : Validator) (classes : String) :
    v.checkClasses (v.checkClasses classes).code = ⟨(v.checkClasses classes).code, []⟩ := by
  have hwords := text_words_checkClasses v classes
  have haccepted : ∀ word ∈ words (v.checkClasses classes).code.toList 0,
      v.accepts word.text = true := by
    intro word hword
    have htext := List.mem_map_of_mem (f := Word.text) hword
    rw [hwords] at htext
    obtain ⟨kept, hkept, htext⟩ := List.mem_map.1 htext
    rw [← htext]
    exact (List.mem_filter.1 hkept).2
  rw [checkClasses_of_accepted haccepted, hwords]
  rfl

/-- The classes of a list are interleaved from those that are kept, which are all accepted, and those
that are reported, which are all refused. -/
structure Partitions (v : Validator) (classes : String) : Prop where
  interleaved : Interleaves (classNames (v.checkClasses classes).code)
    ((v.checkClasses classes).rejections.map Rejection.token) (classNames classes)
  accepted : ∀ name ∈ classNames (v.checkClasses classes).code, v.accepts name.toList = true
  refused : ∀ r ∈ (v.checkClasses classes).rejections, v.accepts r.token.toList = false

theorem partitions (v : Validator) (classes : String) : v.Partitions classes where
  interleaved := by
    rw [classNames_code, token_rejections]
    exact interleaves_filter _ _
  accepted name hname := by
    rw [classNames_code] at hname
    exact (List.mem_filter.1 hname).2
  refused r hr := by
    have htoken := List.mem_map_of_mem (f := Rejection.token) hr
    rw [token_rejections] at htoken
    simpa using (List.mem_filter.1 htoken).2

theorem checkClasses_partitions (v : Validator) (classes : String) :
    v.Partitions classes ∧
      v.checkClasses (v.checkClasses classes).code = ⟨(v.checkClasses classes).code, []⟩ ∧
      ∀ more : String,
        (v.checkClasses (classes ++ " " ++ more)).rejections.map Rejection.unplaced =
            (v.checkClasses classes).rejections.map Rejection.unplaced ++
              (v.checkClasses more).rejections.map Rejection.unplaced ∧
          classNames (v.checkClasses (classes ++ " " ++ more)).code =
            classNames (v.checkClasses classes).code ++ classNames (v.checkClasses more).code := by
  refine ⟨v.partitions classes, v.checkClasses_code classes, fun more => ⟨?_, ?_⟩⟩
  · simp only [unplaced_rejections, Markup.classNames_append, List.filterMap_append]
  · simp only [classNames_code, Markup.classNames_append, List.filter_append]

end Validator
end DesignTokens
