import DesignTokens.Proofs.Extraction.DepthLimit
import DesignTokens.Proofs.Script.Delimiters
import DesignTokens.Proofs.Script.NestingLimit
import DesignTokens.Proofs.Script.Unread

/-! # The labels of faults

Whatever a script is refused for, the label covers a part of the text: the literal that is not
terminated, the delimiter that is wrong or one too many, or the object literal that is too deep. -/
namespace DesignTokens
open Text (Span utf8Length)

namespace Script

namespace Lexer
variable {regexAllowed : Bool} {c : Char} {cs : List Char} {d : Delimiter}

private theorem number_ne_opener (first : Char) (cs : List Char) :
    (NumericLiteral.read first cs).1 ≠ .opener d := by
  rcases number_kind first cs with ⟨value, h⟩ | h <;> simp [h]

/-- An opening delimiter is read as one character. -/
theorem read_opener (h : (read regexAllowed c cs).1 = .opener d) :
    c = d.opening ∧ (read regexAllowed c cs).2 = 0 := by
  unfold read at h ⊢
  split at h
  case h_1 | h_3 | h_5 =>
    cases h
    exact ⟨rfl, rfl⟩
  case h_10 => split at h <;> cases h
  case h_11 =>
    unfold readDot at h
    split at h
    · cases h
    · split at h
      · exact absurd h (number_ne_opener _ _)
      · cases h
    · cases h
  case h_12 =>
    unfold readSlash at h
    split at h
    · cases h
    · simp only [readBlockComment] at h
      split at h <;> cases h
    · simp only [readRegex] at h
      split at h
      · split at h <;> cases h
      · cases h
  case h_13 | h_14 =>
    simp only [readQuoted] at h
    split at h <;> cases h
  case h_15 =>
    simp only [readTemplate] at h
    split at h <;> cases h
  case h_16 =>
    split at h
    · cases h
    · split at h
      · cases h
      · split at h
        · exact absurd h (number_ne_opener _ _)
        · cases h
  all_goals cases h

end Lexer

private theorem utf8Length_opening (d : Delimiter) : utf8Length [d.opening] = 1 := by
  cases d <;> rfl

/-- An opening delimiter takes up one byte. -/
theorem stop_of_opener (rule : SlashRule) (last : Option TokenKind) (start : Nat) (cs : List Char)
    {d : Delimiter} : ∀ t ∈ lexFrom rule last start cs, t.kind = .opener d →
      t.span.stop = t.span.start + 1 := by
  match cs with
  | [] =>
    rw [lexFrom_nil, List.forall_mem_singleton]
    exact nofun
  | c :: cs =>
    rcases hr : Lexer.read (rule.allowsRegex last) c cs with ⟨kind, length⟩
    rw [lexFrom_cons rule last start c cs hr, List.forall_mem_cons]
    refine ⟨fun hk => ?_, stop_of_opener rule _ _ (cs.drop length)⟩
    have hkind : (Lexer.read (rule.allowsRegex last) c cs).1 = .opener d := by
      rw [hr]
      exact hk
    have hopener := Lexer.read_opener hkind
    rw [hr] at hopener
    obtain ⟨rfl, rfl⟩ := hopener
    rw [List.take_zero, utf8Length_opening]
termination_by cs.length

private theorem mem_of_leavesOpen {ts : List Token} {opens : List (Delimiter × Span)}
    {d : Delimiter} {span : Span} (h : LeavesOpen ts ((d, span) :: opens)) :
    ⟨.opener d, span⟩ ∈ ts := by
  cases h with
  | opener h hi => simp

private theorem atFault_of_tokens {source : String} {fault : Fault}
    (h : tokens source = .error fault) : AtFault (lex .byContext source) fault := by
  rcases exists_atFault (lex .byContext source) with ⟨hterm, hopen⟩ | ⟨fault', hfault⟩
  · rw [tokens_of_wellFormed hterm hopen] at h
    cases h
  · rw [hfault.tokens_eq] at h
    obtain rfl := Except.error.inj h
    exact hfault

end Script

open Script

/-- The label covers exactly a span, and this is a part of the text that is not empty. -/
structure Label.Covers (label : Label) (source : String) (span : Span) : Prop where
  start : label.offset = span.start
  stop : label.offset + label.length = span.stop
  progress : 0 < label.length
  inside : label.offset + label.length ≤ source.utf8ByteSize
  boundaries : (String.Pos.Raw.mk label.offset).IsValid source ∧
    (String.Pos.Raw.mk (label.offset + label.length)).IsValid source

namespace Label.Covers
variable {source : String} {t u : Token}

/-- A label on tokens of a text covers them. -/
theorem of_tokens (ht : t ∈ lex .byContext source) (hu : u ∈ lex .byContext source)
    (h : t.span.start < u.span.stop) {label : Label} (hstart : label.offset = t.span.start)
    (hlength : label.length = u.span.stop - t.span.start) :
    label.Covers source ⟨t.span.start, u.span.stop⟩ := by
  have hstop : label.offset + label.length = u.span.stop := by omega
  have hboundary := ((tiles_lex .byContext source).boundaries u hu).2
  constructor
  · exact hstart
  · exact hstop
  · omega
  · rw [hstop]
    exact hboundary.le_utf8ByteSize
  · rw [hstop, hstart]
    exact ⟨((tiles_lex .byContext source).boundaries t ht).1, hboundary⟩

/-- A label on one token covers it. -/
theorem of_token (ht : t ∈ lex .byContext source) (hk : t.kind ≠ .endOfText) (text : String) :
    (Label.on t.span text).Covers source t.span :=
  of_tokens ht ht ((tiles_lex .byContext source).progress t (mem_dropLast_lex ht hk)) rfl rfl

end Label.Covers

/-- What a fault is about is found at the span. -/
inductive IsAbout (source : String) (options : Options) : ExtractionFault → Span → Prop
  | literal {literal : LiteralKind} {span : Span}
      (h : AtFault (lex .byContext source) (.unterminatedLiteral literal span))
      (ht : ⟨.unterminated literal, span⟩ ∈ lex .byContext source) :
      IsAbout source options (.script (.unterminatedLiteral literal span)) span
  | closer {fitting : Option Delimiter} {d : Delimiter} {span : Span}
      (h : AtFault (lex .byContext source) (.mismatchedDelimiter fitting span))
      (ht : ⟨.closer d, span⟩ ∈ lex .byContext source) :
      IsAbout source options (.script (.mismatchedDelimiter fitting span)) span
  | opener {d : Delimiter} {span : Span}
      (h : AtFault (lex .byContext source) (.unclosedDelimiter span))
      (ht : ⟨.opener d, span⟩ ∈ lex .byContext source) :
      IsAbout source options (.script (.unclosedDelimiter span)) span
  | nesting {ts : List Token} {t : Token} (hts : Script.tokens source = .ok ts) (ht : t ∈ ts)
      (hkind : t.kind = .opener .brace ∨ t.kind = .opener .bracket)
      (h : Call.Attempts t (.roots ts)) :
      IsAbout source options (.script (.nestingTooDeep t.span.start)) t.span
  | object {ts : List Token} {roots : List Expr} {root : Expr} {o : Enclosed}
      {members : List Member} (hts : Script.tokens source = .ok ts)
      (hroots : document source = .ok roots) (h : Declared.IsFirstBeyond options.maxDepth roots o)
      (hroot : root ∈ roots)
      (hpath : Relation.ReflTransGen Expr.Holds root (.object o.span members))
      (hspan : Delimits ts .brace o.span) :
      IsAbout source options
        (.depth ⟨o.names.map Declaration.nameText, options.maxDepth, o.span⟩) o.span

namespace Declared
variable {source : String} {options : Options}

theorem exists_covers_of_atFault {fault : Fault} (h : AtFault (lex .byContext source) fault) :
    ∃ span, IsAbout source options (.script fault) span ∧ fault.label.Covers source span := by
  cases id h with
  | @literal before after literal span hts hfirst =>
    have ht : ⟨.unterminated literal, span⟩ ∈ lex .byContext source := by simp [hts]
    exact ⟨span, .literal h ht, .of_token ht nofun _⟩
  | @closer before after opens d span hterm hts =>
    have ht : ⟨.closer d, span⟩ ∈ lex .byContext source := by simp [hts]
    exact ⟨span, .closer h ht, .of_token ht nofun _⟩
  | @opener opens d span hterm hopen =>
    have ht := mem_of_leavesOpen hopen
    exact ⟨span, .opener h ht, .of_token ht nofun _⟩

theorem exists_covers_of_nesting {ts : List Token} {start : Nat}
    (hts : Script.tokens source = .ok ts) (h : Parser.roots ts = .error start) :
    ∃ span, IsAbout source options (.script (.nestingTooDeep start)) span ∧
      (Fault.nestingTooDeep start).label.Covers source span := by
  obtain ⟨t, hattempts, rfl⟩ := (Call.refuses_iff (c := .roots ts)).1 h
  obtain ⟨ht, hkind⟩ := hattempts.opens
  have hlex := List.mem_of_mem_dropLast (mem_lex_of_tokens hts ht)
  have hstop : t.span.stop = t.span.start + 1 := by
    rcases hkind with hkind | hkind
    · exact stop_of_opener _ _ _ _ t hlex hkind
    · exact stop_of_opener _ _ _ _ t hlex hkind
  exact ⟨t.span, .nesting hts ht hkind hattempts,
    .of_tokens hlex hlex (by omega) rfl (by rw [hstop, Nat.add_sub_cancel_left]; rfl)⟩

theorem exists_covers_of_depth {roots : List Expr} {fault : DepthFault}
    (hroots : document source = .ok roots)
    (h : extract source options = .error (.depth fault)) :
    ∃ span, IsAbout source options (.depth fault) span ∧ fault.label.Covers source span := by
  obtain ⟨o, ho, rfl⟩ := (firstDeep_eq_some_iff hroots).1 ((extract_eq_depth_iff hroots).1 h)
  obtain ⟨place, value, q, ⟨i, root, p, hroot, hp, hplace⟩, hq, rfl⟩ := ho.inTheme
  obtain ⟨members, hinside⟩ := hq.exists_object
  have hmem := List.mem_of_getElem? hroot
  obtain rfl : value = p.value := congrArg Property.value hplace
  have hpath := hp.exists_path.trans hinside
  obtain ⟨ts, hts, hcarries⟩ := carries_of_document hroots
  have hpart : root.IsPart ts := hcarries.exists_run hmem
  have hplaced := (hpart.trans hpath).placedIn (areApart_of_tokens hts)
  obtain ⟨t, ht, u, hu, hspan⟩ := hplaced.ends
  have hlex {t : Token} (ht : t ∈ ts) : t ∈ lex .byContext source :=
    List.mem_of_mem_dropLast (mem_lex_of_tokens hts ht)
  refine ⟨_, .object hts hroots ho hmem hpath (hplaced.braces _ _ rfl), ?_⟩
  have hlt : q.span.start < q.span.stop := hplaced.progress
  have hends : q.span = ⟨t.span.start, u.span.stop⟩ := hspan
  rw [Enclosed.inTheme, hends]
  rw [hends] at hlt
  exact .of_tokens (hlex ht) (hlex hu) hlt rfl rfl

/-- Of every script that is refused the label covers what it is refused for. -/
theorem label_covers {fault : ExtractionFault} (h : extract source options = .error fault) :
    ∃ span, IsAbout source options fault span ∧ fault.label.Covers source span := by
  cases hroots : document source with
  | ok roots =>
    obtain ⟨fault, rfl⟩ : ∃ f, fault = .depth f := by
      rw [extract_of_document hroots] at h
      cases hd : ofRoots options roots with
      | error f =>
        rw [hd] at h
        exact ⟨f, (Except.error.inj h).symm⟩
      | ok d =>
        rw [hd] at h
        cases h
    exact exists_covers_of_depth hroots h
  | error refusal =>
    rw [extract, hroots] at h
    obtain rfl := Except.error.inj h
    cases hts : Script.tokens source with
    | error refusal' =>
      rw [document, hts] at hroots
      obtain rfl := Except.error.inj hroots
      exact exists_covers_of_atFault (atFault_of_tokens hts)
    | ok ts =>
      rw [document, hts] at hroots
      cases hp : Parser.roots ts with
      | error start =>
        simp only [hp] at hroots
        obtain rfl := Except.error.inj hroots
        exact exists_covers_of_nesting hts hp
      | ok roots => simp [hp] at hroots

theorem label_covers_bracket : ∃ fault, extract "[a, (b]" Options.standard = .error fault ∧
    fault = .script (.mismatchedDelimiter (some .parenthesis) ⟨6, 7⟩) ∧
    ∃ span, IsAbout "[a, (b]" Options.standard fault span ∧
      fault.label.Covers "[a, (b]" span := by
  have h : extract "[a, (b]" Options.standard =
      .error (.script (.mismatchedDelimiter (some .parenthesis) ⟨6, 7⟩)) := by
    decide +kernel
  exact ⟨_, h, rfl, label_covers h⟩

end Declared
end DesignTokens
