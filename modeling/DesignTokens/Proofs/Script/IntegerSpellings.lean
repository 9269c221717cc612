import DesignTokens.Extraction
import DesignTokens.Proofs.Overlay
import DesignTokens.Proofs.Script.QuotedText
import DesignTokens.Proofs.WholeNumbers

/-! # Spellings of whole numbers

A number is written in decimal digits or, behind a mark, in those of another radix, with zeros in
front and underscores in between. However it is spelled, it stands for the same key and for the same
value. -/
namespace DesignTokens

namespace Script
open Escape (digits)
open Text (utf8Length isBlank of_isBlank)

private theorem digitOf?_of_mem {c : Char} {d radix : Nat} (hc : (c, d) ∈ digits) (hd : d < radix) :
    Numeral.digitOf? radix c = some d := by
  have h : ∀ p ∈ digits, Numeral.digitOf? 16 p.1 = some p.2 := by decide
  obtain ⟨hvalue, -⟩ := Option.filter_eq_some_iff.1 (h _ hc)
  exact Option.filter_eq_some_iff.2 ⟨hvalue, by simpa using hd⟩

/-- The digits below ten are the decimal ones. -/
theorem isDigit_of_mem : ∀ p ∈ digits, p.2 < 10 → p.1.isDigit ∧ Numeral.digitValue p.1 = p.2 := by
  decide

namespace NumericLiteral

theorem isDigitOrLetter_of_mem : ∀ p ∈ digits, isDigitOrLetter p.1 ∧ p.1 ≠ '_' := by
  decide

/-- Digits of a radix with underscores anywhere among them, and the number that they spell. -/
inductive Denotes (radix : Nat) : Nat → List Char → Prop
  | nil : Denotes radix 0 []
  | underscore {n : Nat} {cs : List Char} (h : Denotes radix n cs) : Denotes radix n (cs ++ ['_'])
  | digit {n d : Nat} {c : Char} {cs : List Char} (h : Denotes radix n cs) (hc : (c, d) ∈ digits)
      (hd : d < radix) : Denotes radix (radix * n + d) (cs ++ [c])

private theorem withoutSeparators_append (xs ys : List Char) :
    withoutSeparators (xs ++ ys) = withoutSeparators xs ++ withoutSeparators ys :=
  List.filter_append ..

namespace Denotes
variable {radix n : Nat} {cs : List Char}

theorem exists_digit (h : Denotes radix n cs) :
    ∀ c ∈ cs, c = '_' ∨ ∃ d < radix, (c, d) ∈ digits := by
  induction h with
  | nil => simp
  | underscore _ ih => simpa [or_imp, forall_and] using ih
  | digit _ hc hd ih => simpa [or_imp, forall_and] using ⟨ih, .inr ⟨_, hd, hc⟩⟩

theorem isDigitOrLetter (h : Denotes radix n cs) : ∀ c ∈ cs, isDigitOrLetter c := by
  intro c hc
  rcases h.exists_digit c hc with rfl | ⟨d, -, hd⟩
  · rfl
  · exact (isDigitOrLetter_of_mem _ hd).1

/-- What is computed from the digits one by one is computed from the number that they denote. -/
theorem foldl_eq {α : Type} (value : Nat → α) {step : α → Char → α} (h : Denotes radix n cs)
    (hstep : ∀ m d c, (c, d) ∈ digits → d < radix → step (value m) c = value (radix * m + d)) :
    (withoutSeparators cs).foldl step (value 0) = value n := by
  induction h with
  | nil => rfl
  | underscore _ ih =>
    rw [withoutSeparators_append, List.foldl_append, ih]
    rfl
  | @digit m d c cs _ hc hd ih =>
    have hkept : withoutSeparators [c] = [c] := by
      simp [withoutSeparators, (isDigitOrLetter_of_mem _ hc).2]
    rw [withoutSeparators_append, List.foldl_append, ih, hkept]
    exact hstep m d c hc hd

theorem ofDigits? (h : Denotes radix n cs) (hne : withoutSeparators cs ≠ []) :
    Numeral.ofDigits? radix (withoutSeparators cs) = some n := by
  rw [Numeral.ofDigits?, if_neg (by simpa using hne)]
  exact h.foldl_eq some fun m d c hc hd => by simp [digitOf?_of_mem hc hd]

theorem isDigit (h : Denotes 10 n cs) : ∀ c ∈ cs, c.isDigit ∨ c = '_' := by
  intro c hc
  rcases h.exists_digit c hc with rfl | ⟨d, hlt, hd⟩
  · exact .inr rfl
  · exact .inl (isDigit_of_mem _ hd hlt).1

/-- Behind a zero no decimal digit marks a radix. -/
theorem radix?_eq_none (h : Denotes 10 n cs) : ∀ c ∈ cs, radix? c = none := by
  have hdigits : ∀ p ∈ digits, p.2 < 10 → radix? p.1 = none := by decide
  intro c hc
  rcases h.exists_digit c hc with rfl | ⟨d, hlt, hd⟩
  · rfl
  · exact hdigits _ hd hlt

theorem decimalValue (h : Denotes 10 n cs) :
    Numeral.decimalValue (withoutSeparators cs) = n := by
  rw [Numeral.decimalValue]
  exact h.foldl_eq id fun m d c hc hd => by simp [(isDigit_of_mem _ hc hd).2]

end Denotes

/-- The letters that say what radix the digits behind them have. -/
def radixMarks : List (Char × Nat) :=
  [('x', 16), ('X', 16), ('o', 8), ('O', 8), ('b', 2), ('B', 2)]

/-- The literals that spell a number. -/
inductive IsSpelling (n : Nat) : List Char → Prop
  | decimal {first : Char} {cs suffix : List Char} (h : Denotes 10 n (first :: cs))
      (hfirst : first ≠ '_') (hsuffix : suffix = [] ∨ suffix = ['n']) :
      IsSpelling n (first :: (cs ++ suffix))
  | marked {mark : Char} {radix : Nat} {cs : List Char} (hmark : (mark, radix) ∈ radixMarks)
      (h : Denotes radix n cs) (hdigit : ∃ c ∈ cs, c ≠ '_') : IsSpelling n ('0' :: mark :: cs)

/-- What may stand behind a literal: nothing, or what begins with a blank, a comma, a colon or a
closing delimiter. -/
def IsBoundary (rest : List Char) : Prop :=
  ∀ c ∈ rest.head?, isBlank c ∨ c ∈ [',', ':', ')', ']', '\x7d']

/-- No character that may stand behind a literal goes on with it. -/
theorem IsBoundary.head {rest : List Char} (h : IsBoundary rest) (p : Char → Bool)
    (hblank : ∀ c, isBlank c → p c) (hmark : [',', ':', ')', ']', '\x7d'].all p) :
    ∀ c ∈ rest.head?, p c := by
  intro c hc
  rcases h c hc with hc | hc
  · exact hblank c hc
  · exact List.all_eq_true.1 hmark c hc

private theorem decimalLength_append {cs : List Char} (h : ∀ c ∈ cs, c.isDigit ∨ c = '_')
    (pointSeen markSeen : Bool) (rest : List Char) :
    decimalLength pointSeen markSeen (cs ++ rest) =
      cs.length + decimalLength pointSeen markSeen rest := by
  induction cs with
  | nil => simp
  | cons c cs ih =>
    rw [List.forall_mem_cons] at h
    rw [List.cons_append, decimalLength_cons, if_pos (by simpa using h.1), ih h.2, List.length_cons]
    omega

/-- With these characters a literal in decimal digits goes on. -/
def goesOn (c : Char) : Bool := c.isDigit || c ∈ ['_', '.', 'e', 'E']

private theorem decimalLength_of_head {rest : List Char} (h : ∀ c ∈ rest.head?, !goesOn c)
    (pointSeen markSeen : Bool) : decimalLength pointSeen markSeen rest = 0 := by
  cases rest with
  | nil => rfl
  | cons c rest =>
    have hc : c.isDigit = false ∧ c ≠ '_' ∧ c ≠ '.' ∧ c ≠ 'e' ∧ c ≠ 'E' := by
      simpa [goesOn] using h c rfl
    rw [decimalLength_cons]
    simp [hc]

/-- A text of digits is read as the number that they spell. -/
theorem read?_digits {cs : List Char} (hne : cs ≠ []) (h : ∀ c ∈ cs, c.isDigit) :
    Numeral.read? cs = some (Binary64.ofDecimal (Numeral.decimalValue cs) 0) := by
  have hwhole : cs.takeWhile Char.isDigit = cs := List.takeWhile_eq_self_iff.2 h
  simp [Numeral.read?, Numeral.mantissa, hwhole, hne, Numeral.exponent?]

variable {n : Nat} {rest : List Char}

private theorem readDecimal_spelling {first : Char} {cs suffix : List Char}
    (h : Denotes 10 n (first :: cs))
    (hfirst : first ≠ '_') (hsuffix : suffix = [] ∨ suffix = ['n']) (hrest : IsBoundary rest) :
    readDecimal first (cs ++ suffix ++ rest) =
      (.number (Binary64.ofDecimal n 0), (cs ++ suffix).length) := by
  have hdigits := (List.forall_mem_cons.1 h.isDigit).2
  have hrest' : ∀ c ∈ rest.head?, !goesOn c && c ≠ 'n' :=
    hrest.head _ (fun c hc => of_isBlank (p := fun c => !goesOn c && c ≠ 'n') (by decide) hc)
      (by decide)
  have hlength (pointSeen : Bool) :
      decimalLength pointSeen false (cs ++ (suffix ++ rest)) = cs.length := by
    rw [decimalLength_append hdigits, decimalLength_of_head, Nat.add_zero]
    rcases hsuffix with rfl | rfl
    · exact fun c hc => (Bool.and_eq_true_iff.1 (hrest' c hc)).1
    · simp [goesOn]
  have hsuffixLength : suffixLength (suffix ++ rest) = suffix.length := by
    rcases hsuffix with rfl | rfl
    · cases rest with
      | nil => rfl
      | cons c rest =>
        have hc : c ≠ 'n' := by simpa using (Bool.and_eq_true_iff.1 (hrest' c rfl)).2
        simp [suffixLength, hc]
    · rfl
  have hvalue : Numeral.read? (withoutSeparators (first :: cs)) =
      some (Binary64.ofDecimal n 0) := by
    rw [read?_digits, h.decimalValue]
    · simp [withoutSeparators, hfirst]
    · intro c hc
      obtain ⟨hmem, hline⟩ := List.mem_filter.1 hc
      exact (h.isDigit c hmem).resolve_right (by simpa using hline)
  rw [readDecimal, List.append_assoc, hlength, List.take_left, List.drop_left, hvalue,
    hsuffixLength, List.length_append]
  rfl

private theorem readRadix_spelling {mark : Char} {radix : Nat} {cs : List Char}
    (hmark : (mark, radix) ∈ radixMarks) (h : Denotes radix n cs) (hdigit : ∃ c ∈ cs, c ≠ '_')
    (hn : n < UInt64.size) (hrest : IsBoundary rest) :
    read '0' (mark :: cs ++ rest) = (.number (Binary64.ofNat n), (mark :: cs).length) := by
  have hradix : radix? mark = some radix := by
    have : ∀ p ∈ radixMarks, radix? p.1 = some p.2 := by decide
    exact this _ hmark
  have hdigits : (cs ++ rest).takeWhile isDigitOrLetter = cs := by
    rw [List.takeWhile_append_of_pos h.isDigitOrLetter]
    cases rest with
    | nil => simp
    | cons c rest =>
      have hc : !isDigitOrLetter c :=
        hrest.head (!isDigitOrLetter ·) (fun c hc => by simp [isDigitOrLetter_of_isBlank hc])
          (by decide) c rfl
      rw [List.takeWhile_cons_of_neg (by simpa using hc), List.append_nil]
  have hne : withoutSeparators cs ≠ [] := by
    obtain ⟨c, hc, hline⟩ := hdigit
    exact List.ne_nil_of_mem (List.mem_filter.2 ⟨hc, by simpa using hline⟩)
  simp only [read, List.cons_append, hradix, hdigits, ofRadix?, h.ofDigits? hne]
  simp [Option.filter, hn, kindOf]

theorem read_spelling {first : Char} {cs : List Char} (h : IsSpelling n (first :: cs))
    (hn : n ≤ Binary64.exactBound) (hrest : IsBoundary rest) :
    read first (cs ++ rest) = (.number (Binary64.ofNat n), cs.length) := by
  cases h with
  | @decimal _ cs suffix h hfirst hsuffix =>
    have hmark : (cs ++ suffix ++ rest).head?.bind radix? = none := by
      refine Option.bind_eq_none_iff.2 fun c hc => ?_
      cases cs with
      | cons d cs =>
        obtain rfl : d = c := Option.some.inj hc
        exact h.radix?_eq_none d (by simp)
      | nil =>
        rcases hsuffix with rfl | rfl
        · have := hrest.head (fun c => (radix? c).isNone)
            (fun c hc => by simp [radix?_of_isBlank hc]) (by decide) c hc
          simpa using this
        · obtain rfl : 'n' = c := Option.some.inj hc
          rfl
    rw [read_eq_readDecimal fun _ => hmark, readDecimal_spelling h hfirst hsuffix hrest,
      Binary64.ofDecimal_zero hn]
  | marked hmark h hdigit =>
    exact readRadix_spelling hmark h hdigit (Nat.lt_of_le_of_lt hn (by decide)) hrest

/-- A literal begins with a decimal digit. -/
theorem IsSpelling.first {first : Char} {cs : List Char} (h : IsSpelling n (first :: cs)) :
    ∃ d < 10, (first, d) ∈ digits := by
  cases h with
  | decimal h hfirst => exact (h.exists_digit first (by simp)).resolve_left hfirst
  | marked => exact ⟨0, by decide, by decide⟩

theorem IsSpelling.ne_nil {cs : List Char} (h : IsSpelling n cs) : cs ≠ [] := by
  cases h <;> simp

end NumericLiteral

open NumericLiteral (IsSpelling IsBoundary)
variable {n : Nat} {rest : List Char}

/-- A literal that begins with a decimal digit is a number. -/
theorem Lexer.read_digit {c : Char} {d : Nat} (hc : (c, d) ∈ digits) (hd : d < 10)
    (regexAllowed : Bool) (cs : List Char) :
    read regexAllowed c cs = NumericLiteral.read c cs := by
  have hplain : ∀ p ∈ digits, p.2 < 10 →
      isBlank p.1 = false ∧ isIdentifierStart p.1 = false ∧ p.1.isDigit ∧ p.1 ∉ ['\x7b', '\x7d',
        '[', ']', '(', ')', ',', ':', ';', '=', '.', '/', '"', '\'', '`'] := by
    decide +kernel
  obtain ⟨hblank, hstart, hdigit, hmarks⟩ := hplain _ hc hd
  unfold read
  split
  case h_16 => simp [hblank, hstart, hdigit]
  all_goals simp at hmarks

theorem lexFrom_spelling {cs : List Char} (h : IsSpelling n cs) (hn : n ≤ Binary64.exactBound)
    (hrest : IsBoundary rest) (rule : SlashRule) (last : Option TokenKind) (start : Nat) :
    lexFrom rule last start (cs ++ rest) =
      ⟨.number (Binary64.ofNat n), ⟨start, start + utf8Length cs⟩⟩ ::
        lexFrom rule (some (.number (Binary64.ofNat n))) (start + utf8Length cs) rest := by
  obtain ⟨first, cs, rfl⟩ := List.exists_cons_of_ne_nil h.ne_nil
  obtain ⟨d, hd, hfirst⟩ := h.first
  have hr := Lexer.read_digit hfirst hd (rule.allowsRegex last) (cs ++ rest)
  rw [NumericLiteral.read_spelling h hn hrest] at hr
  rw [List.cons_append, lexFrom_cons _ _ _ _ _ hr, List.take_left, List.drop_left]
  rfl

section
variable {x : Binary64} {span : Text.Span} {depth : Nat} {ts : List Token}

/-- Only a value or a method follows the number that is the key of a member. -/
theorem Parser.key_of_member {member : Member} {left : Rest (⟨.number x, span⟩ :: ts)}
    (h : Parser.member depth (⟨.number x, span⟩ :: ts) = .ok (member, left)) :
    ∃ value, member = .pair (some x.numeral) value := by
  have hmapped {us : List Token} {o : Parser.Outcome Expr us} (hle : us.length ≤ _)
      (ho : (o.mapValue (Member.pair (some x.numeral))).widen hle = .ok (member, left)) :
      ∃ value, member = .pair (some x.numeral) value := by
    cases o with
    | error failure => cases ho
    | ok read => exact ⟨read.1, (Prod.mk.inj (Except.ok.inj ho)).1.symm⟩
  rw [Parser.member, if_neg (by simp)] at h
  cases ts with
  | nil => cases h
  | cons next more =>
    simp only [Parser.key?, Rest.tail] at h
    split at h
    · exact hmapped _ h
    · split at h
      · exact hmapped _ h
      · cases h

/-- A colon and a value behind a number are a member. -/
theorem Parser.member_colon {colon : Token} (hcolon : colon.kind = .colon) :
    (Parser.member depth (⟨.number x, span⟩ :: colon :: ts)).map Prod.fst =
      (Parser.value depth ts).map fun read => .pair (some x.numeral) read.1 := by
  rw [Parser.member, if_neg (by simp)]
  simp only [Parser.key?, Rest.tail, hcolon, if_true]
  cases Parser.value depth ts <;> rfl

end

end Script

namespace TokenTree
open Script (Expr Member)

private theorem entriesOf_append (entries : List (String × TokenTree)) (ms ns : List Member) :
    entriesOf entries (ms ++ ns) = entriesOf (entriesOf entries ms) ns := by
  induction ms generalizing entries with
  | nil => rfl
  | cons m ms ih =>
    rcases m with ⟨_ | key, value⟩ | value
    · exact ih entries
    · rw [List.cons_append, entriesOf, entriesOf]
      cases ofExpr? value with
      | none => exact ih entries
      | some tree => exact ih _
    · exact ih entries

theorem entriesOf_pair {value : Expr} {tree : TokenTree} (h : ofExpr? value = some tree)
    (entries : List (String × TokenTree)) (key : String) (ms : List Member) :
    entriesOf entries (.pair (some key) value :: ms) =
      entriesOf (OrderedMap.put key tree entries) ms := by
  rw [entriesOf, h]

/-- Only members with a key change what it holds. -/
theorem lookup_entriesOf {key : String} {ms : List Member}
    (h : ∀ value, .pair (some key) value ∉ ms) (entries : List (String × TokenTree)) :
    (entriesOf entries ms).lookup key = entries.lookup key := by
  induction ms generalizing entries with
  | nil => rfl
  | cons m ms ih =>
    have hms : ∀ value, .pair (some key) value ∉ ms := fun value hmem =>
      h value (List.mem_cons_of_mem m hmem)
    rcases m with ⟨_ | other, value⟩ | value
    · exact ih hms entries
    · have hother : key ≠ other := by
        rintro rfl
        exact h value List.mem_cons_self
      rw [entriesOf]
      cases ofExpr? value with
      | none => exact ih hms entries
      | some tree => rw [ih hms, OrderedMap.lookup_put, if_neg hother]
    · exact ih hms entries

end TokenTree

namespace Script
open NumericLiteral (IsSpelling IsBoundary Denotes)
open Text (utf8Length)

/-- A text is one token, and its number is `n` as the key of a member and as a value. -/
structure StandsFor (cs : List Char) (n : Nat) (x : Binary64) : Prop where
  token {rest : List Char} (hrest : IsBoundary rest) (rule : SlashRule) (last : Option TokenKind)
    (start : Nat) :
    lexFrom rule last start (cs ++ rest) =
      ⟨.number x, ⟨start, start + utf8Length cs⟩⟩ ::
        lexFrom rule (some (.number x)) (start + utf8Length cs) rest
  numeral : x.numeral = toString n
  key {depth : Nat} {span : Text.Span} {ts : List Token} {member : Member}
    {left : Rest (⟨.number x, span⟩ :: ts)}
    (h : Parser.member depth (⟨.number x, span⟩ :: ts) = .ok (member, left)) :
    ∃ value, member = .pair (some (toString n)) value
  pair (depth : Nat) (span : Text.Span) {colon : Token} (hcolon : colon.kind = .colon)
    (ts : List Token) :
    (Parser.member depth (⟨.number x, span⟩ :: colon :: ts)).map Prod.fst =
      (Parser.value depth ts).map fun read => .pair (some (toString n)) read.1
  leaf (span : Text.Span) : TokenTree.ofExpr? (.number span x) = some (.leaf (toString n))

theorem NumericLiteral.IsSpelling.standsFor {n : Nat} {cs : List Char} (h : IsSpelling n cs)
    (hn : n ≤ Binary64.exactBound) : StandsFor cs n (Binary64.ofNat n) where
  token hrest := lexFrom_spelling h hn hrest
  numeral := Binary64.numeral_ofNat hn
  key hmember := Binary64.numeral_ofNat hn ▸ Parser.key_of_member hmember
  pair _ _ _ hcolon _ := Binary64.numeral_ofNat hn ▸ Parser.member_colon hcolon
  leaf _ := congrArg (some ∘ TokenTree.leaf) (Binary64.numeral_ofNat hn)

/-- Every spelling of a number stands for its canonical numeral, and of two members with numbers as
keys the second one takes the place of the first just where the numbers are the same. -/
theorem spellings_collide {n m : Nat} {cs ds : List Char} (hcs : IsSpelling n cs)
    (hds : IsSpelling m ds) (hn : n ≤ Binary64.exactBound) (hm : m ≤ Binary64.exactBound) :
    ∃ x y, StandsFor cs n x ∧ StandsFor ds m y ∧
      ∀ (entries : List (String × TokenTree)) (between : List Member) {v w : Expr}
        {tree other : TokenTree}, (∀ value, .pair (some x.numeral) value ∉ between) →
        TokenTree.ofExpr? v = some tree → TokenTree.ofExpr? w = some other →
        (TokenTree.entriesOf entries
          (.pair (some x.numeral) v :: between ++ [.pair (some y.numeral) w])).lookup x.numeral =
            some (if n = m then other else tree) := by
  refine ⟨_, _, hcs.standsFor hn, hds.standsFor hm, ?_⟩
  intro entries between v w tree other hbetween hv hw
  rw [Binary64.numeral_ofNat hn] at hbetween
  rw [Binary64.numeral_ofNat hn, Binary64.numeral_ofNat hm, TokenTree.entriesOf_append,
    TokenTree.entriesOf_pair hv, TokenTree.entriesOf_pair hw, TokenTree.entriesOf,
    OrderedMap.lookup_put, TokenTree.lookup_entriesOf hbetween, OrderedMap.lookup_put, if_pos rfl]
  have hkeys : toString n = toString m ↔ n = m := by
    refine ⟨fun h => ?_, congrArg toString⟩
    rw [← Numeral.decimalValue_toString n, h, Numeral.decimalValue_toString]
  simp only [hkeys]
  split <;> rfl

/-- The zero in front and the underscores tell no two spellings apart. -/
theorem spellings_collide_thirtyOne :
    IsSpelling 31 ['0', 'X', '1', '_', 'F'] ∧ IsSpelling 31 ['0', '3', '_', '1', '_', 'n'] ∧
      ∃ x y, lex .byContext "0X1_F" = [⟨.number x, ⟨0, 5⟩⟩, ⟨.endOfText, ⟨5, 5⟩⟩] ∧
        lex .byContext "03_1_n" = [⟨.number y, ⟨0, 6⟩⟩, ⟨.endOfText, ⟨6, 6⟩⟩] ∧
        (TokenTree.entriesOf [] [.pair (some x.numeral) (.string ⟨6, 9⟩ "a"),
          .pair (some y.numeral) (.string ⟨17, 20⟩ "b")]).lookup "31" = some (.leaf "b") := by
  have hone : Denotes 16 1 ['1'] := @Denotes.digit 16 0 1 '1' [] .nil (by decide) (by decide)
  have hhex : Denotes 16 31 ['1', '_', 'F'] :=
    @Denotes.digit 16 1 15 'F' ['1', '_'] hone.underscore (by decide) (by decide)
  have hzero : Denotes 10 0 ['0'] := @Denotes.digit 10 0 0 '0' [] .nil (by decide) (by decide)
  have hthree : Denotes 10 3 ['0', '3'] :=
    @Denotes.digit 10 0 3 '3' ['0'] hzero (by decide) (by decide)
  have hdecimal : Denotes 10 31 ['0', '3', '_', '1'] :=
    @Denotes.digit 10 3 1 '1' ['0', '3', '_'] hthree.underscore (by decide) (by decide)
  have hx : IsSpelling 31 ['0', 'X', '1', '_', 'F'] := .marked (by decide) hhex ⟨'1', by decide⟩
  have hy : IsSpelling 31 ['0', '3', '_', '1', '_', 'n'] :=
    .decimal hdecimal.underscore (by decide) (.inr rfl)
  have hbound : 31 ≤ Binary64.exactBound := by decide
  obtain ⟨x, y, hxs, hys, hlookup⟩ := spellings_collide hx hy hbound hbound
  have hend : IsBoundary [] := by simp [IsBoundary]
  have htoken := hxs.token hend .byContext none 0
  have htoken' := hys.token hend .byContext none 0
  rw [lexFrom_nil] at htoken htoken'
  have hfirst : TokenTree.ofExpr? (.string ⟨6, 9⟩ "a") = some (.leaf "a") := rfl
  have hsecond : TokenTree.ofExpr? (.string ⟨17, 20⟩ "b") = some (.leaf "b") := rfl
  have h := hlookup [] [] (by simp) hfirst hsecond
  refine ⟨hx, hy, x, y, htoken, htoken', ?_⟩
  rwa [hxs.numeral] at h ⊢

end Script
end DesignTokens
