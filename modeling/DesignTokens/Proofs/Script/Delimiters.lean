import DesignTokens.Diagnostic
import DesignTokens.Proofs.Script.Accepted

/-! # The checks before reading

A script is refused for the first literal that is not terminated, or else for the first closing
delimiter that does not fit, or else for the innermost delimiter that stays open. -/
namespace DesignTokens.Script
open Text (Span)
open TokenKind (IsUnterminated)

/-- The delimiters among tokens. -/
def delimiters (ts : List Token) : List Token := ts.filter fun t => t.kind.isDelimiter

/-- The delimiters that tokens leave open, innermost first. Tokens one of whose closing delimiters
does not fit leave none of this. -/
inductive LeavesOpen : List Token → List (Delimiter × Span) → Prop
  | nothing {ts : List Token} (h : Balanced ts) : LeavesOpen ts []
  | opener {outer inside : List Token} {opens : List (Delimiter × Span)} {d : Delimiter} {o : Span}
      (h : LeavesOpen outer opens) (hi : Balanced inside) :
      LeavesOpen (outer ++ ⟨.opener d, o⟩ :: inside) ((d, o) :: opens)

/-- What is wrong with the tokens of a script. -/
inductive AtFault (ts : List Token) : Fault → Prop
  | literal {before after : List Token} {literal : LiteralKind} {span : Span}
      (hts : ts = before ++ ⟨.unterminated literal, span⟩ :: after)
      (hfirst : ∀ t ∈ before, ¬IsUnterminated t.kind) :
      AtFault ts (.unterminatedLiteral literal span)
  | closer {before after : List Token} {opens : List (Delimiter × Span)} {d : Delimiter}
      {span : Span} (hterm : ∀ t ∈ ts, ¬IsUnterminated t.kind)
      (hts : ts = before ++ ⟨.closer d, span⟩ :: after) (hopen : LeavesOpen before opens)
      (hmisfit : opens.head?.map Prod.fst ≠ some d)
      (hfirst : ∀ earlier opens' d' span', earlier ++ [⟨.closer d', span'⟩] <+: before →
        LeavesOpen earlier opens' → opens'.head?.map Prod.fst = some d') :
      AtFault ts (.mismatchedDelimiter (opens.head?.map Prod.fst) span)
  | opener {opens : List (Delimiter × Span)} {d : Delimiter} {span : Span}
      (hterm : ∀ t ∈ ts, ¬IsUnterminated t.kind) (hopen : LeavesOpen ts ((d, span) :: opens)) :
      AtFault ts (.unclosedDelimiter span)

/-- The open delimiters behind one more token, if there is one for it to close. -/
def opensAfter (opens : List (Delimiter × Span)) (t : Token) : Option (List (Delimiter × Span)) :=
  match t.kind, opens with
  | .opener d, _ => some ((d, t.span) :: opens)
  | .closer _, [] => none
  | .closer d, innermost :: outer => if innermost.1 = d then some outer else none
  | _, _ => some opens

section
variable (opens : List (Delimiter × Span)) (d : Delimiter) (span : Span)

theorem opensAfter_of_not_delimiter {t : Token} (h : t.kind.isDelimiter = false) :
    opensAfter opens t = some opens := by
  obtain ⟨kind, span⟩ := t
  cases kind <;> first | rfl | cases h

theorem opensAfter_opener : opensAfter opens ⟨.opener d, span⟩ = some ((d, span) :: opens) := rfl

private theorem opensAfter_closer (o : Span) :
    opensAfter ((d, o) :: opens) ⟨.closer d, span⟩ = some opens := by
  simp [opensAfter]

/-- A closing delimiter fits where the innermost one that is open is of its kind. -/
theorem opensAfter_closer_eq_none_iff :
    opensAfter opens ⟨.closer d, span⟩ = none ↔ opens.head?.map Prod.fst ≠ some d := by
  cases opens with
  | nil => simp [opensAfter]
  | cons innermost outer => simp [opensAfter]

variable {opens d span}

/-- Only a closing delimiter may not fit. -/
theorem kind_of_opensAfter_eq_none {t : Token} (h : opensAfter opens t = none) :
    ∃ d, t.kind = .closer d := by
  obtain ⟨kind, span⟩ := t
  cases kind with
  | closer d => exact ⟨d, rfl⟩
  | _ => cases h

end

/-- Balanced tokens leave open what was open before them. -/
theorem Balanced.foldlM_opensAfter {ts : List Token} (h : Balanced ts)
    (opens : List (Delimiter × Span)) : ts.foldlM opensAfter opens = some opens := by
  induction h generalizing opens with
  | nil => rfl
  | token ht h ih =>
    rw [List.foldlM_cons, opensAfter_of_not_delimiter opens ht]
    exact ih opens
  | @group d o c inside ts hi h ihi ih =>
    rw [List.foldlM_cons, opensAfter_opener]
    simp only [Option.bind_eq_bind, Option.bind_some, List.foldlM_append, List.foldlM_cons, ihi,
      opensAfter_closer, ih]

namespace LeavesOpen

theorem append_balanced {ts us : List Token} {opens : List (Delimiter × Span)}
    (h : LeavesOpen ts opens) (hu : Balanced us) : LeavesOpen (ts ++ us) opens := by
  cases h with
  | nothing h => exact .nothing (h.append hu)
  | opener h hi =>
    rw [List.append_assoc, List.cons_append]
    exact .opener h (hi.append hu)

/-- A closing delimiter of the kind of the innermost open one closes it. -/
theorem close {ts : List Token} {opens : List (Delimiter × Span)} {d : Delimiter} {o : Span}
    (h : LeavesOpen ts ((d, o) :: opens)) (span : Span) :
    LeavesOpen (ts ++ [⟨.closer d, span⟩]) opens := by
  cases h with
  | @opener outer inside _ _ _ h hi =>
    have hgroup : Balanced (⟨.opener d, o⟩ :: (inside ++ [⟨.closer d, span⟩])) := .group hi .nil
    rw [List.append_assoc, List.cons_append]
    exact h.append_balanced hgroup

theorem step {ts : List Token} {opens opens' : List (Delimiter × Span)} {t : Token}
    (h : LeavesOpen ts opens) (ht : opensAfter opens t = some opens') :
    LeavesOpen (ts ++ [t]) opens' := by
  by_cases hd : t.kind.isDelimiter
  · obtain ⟨kind, span⟩ := t
    cases kind with
    | opener d =>
      obtain rfl := Option.some.inj ht
      exact .opener h .nil
    | closer d =>
      cases opens with
      | nil => cases ht
      | cons innermost outer =>
        obtain ⟨hfits, houter⟩ : innermost.1 = d ∧ outer = opens' := by
          simpa [opensAfter] using ht
        subst hfits houter
        exact h.close span
    | _ => cases hd
  · rw [opensAfter_of_not_delimiter opens (by simpa using hd)] at ht
    obtain rfl := Option.some.inj ht
    exact h.append_balanced (.token (by simpa using hd) .nil)

end LeavesOpen

/-- Reading tokens from left to right finds what they leave open. -/
theorem leavesOpen_iff {ts : List Token} {opens : List (Delimiter × Span)} :
    LeavesOpen ts opens ↔ ts.foldlM opensAfter [] = some opens := by
  constructor
  · intro h
    induction h with
    | nothing h => exact h.foldlM_opensAfter []
    | @opener outer inside opens d o h hi ih =>
      rw [List.foldlM_append, ih, Option.bind_eq_bind, Option.bind_some, List.foldlM_cons,
        opensAfter_opener]
      exact hi.foldlM_opensAfter _
  · intro h
    induction ts using List.reverseRecOn generalizing opens with
    | nil =>
      obtain rfl : [] = opens := Option.some.inj h
      exact .nothing .nil
    | append_singleton ts t ih =>
      rw [List.foldlM_append, Option.bind_eq_bind, Option.bind_eq_some_iff] at h
      obtain ⟨opens', hbefore, ht⟩ := h
      refine (ih hbefore).step ?_
      simpa using ht

theorem leavesOpen_nil_iff {ts : List Token} : LeavesOpen ts [] ↔ Balanced ts := by
  constructor
  · intro h
    cases h with
    | nothing h => exact h
  · exact .nothing

/-- Tokens are balanced just if their delimiters are. -/
theorem balanced_delimiters_iff (ts : List Token) : Balanced (delimiters ts) ↔ Balanced ts := by
  have hsame (opens : List (Delimiter × Span)) :
      (delimiters ts).foldlM opensAfter opens = ts.foldlM opensAfter opens := by
    induction ts generalizing opens with
    | nil => rfl
    | cons t ts ih =>
      rw [delimiters, List.filter_cons]
      split
      · rw [List.foldlM_cons, List.foldlM_cons]
        exact congrArg _ (funext ih)
      · rename_i hd
        rw [List.foldlM_cons, opensAfter_of_not_delimiter opens (by simpa using hd)]
        exact ih opens
  rw [← leavesOpen_nil_iff, ← leavesOpen_nil_iff, leavesOpen_iff, leavesOpen_iff, hsame]

/-- Where reading stops, a closing delimiter does not fit what the tokens before it leave open. -/
theorem exists_misfit {ts : List Token} (h : ts.foldlM opensAfter [] = none) :
    ∃ before opens d span after, ts = before ++ ⟨.closer d, span⟩ :: after ∧
      LeavesOpen before opens ∧ opensAfter opens ⟨.closer d, span⟩ = none := by
  induction ts using List.reverseRecOn with
  | nil => cases h
  | append_singleton ts t ih =>
    cases hts : ts.foldlM opensAfter [] with
    | none =>
      obtain ⟨before, opens, d, span, after, rfl, hmisfit⟩ := ih hts
      exact ⟨before, opens, d, span, after ++ [t], by simp, hmisfit⟩
    | some opens =>
      have ht : opensAfter opens t = none := by
        rw [List.foldlM_append, hts] at h
        simpa using h
      obtain ⟨kind, span⟩ := t
      obtain ⟨d, rfl⟩ := kind_of_opensAfter_eq_none ht
      exact ⟨ts, opens, d, span, [], rfl, leavesOpen_iff.2 hts, ht⟩

/-- Of tokens that leave something open every closing delimiter fits. -/
theorem LeavesOpen.fits {ts earlier : List Token} {opens opens' : List (Delimiter × Span)}
    {d : Delimiter} {span : Span} (h : LeavesOpen ts opens)
    (hearlier : earlier ++ [⟨.closer d, span⟩] <+: ts) (hopen : LeavesOpen earlier opens') :
    opens'.head?.map Prod.fst = some d := by
  obtain ⟨after, rfl⟩ := hearlier
  by_contra hmisfit
  have hnone := (opensAfter_closer_eq_none_iff opens' d span).2 hmisfit
  rw [leavesOpen_iff, List.foldlM_append, List.foldlM_append, leavesOpen_iff.1 hopen] at h
  simp [hnone] at h

namespace Nest

/-- The delimiters of the groups that are still open. -/
def opens (pending : List Pending) : List (Delimiter × Span) :=
  pending.map fun p => (p.delimiter, p.opening)

/-- A token that fits is built in. -/
theorem exists_build_cons {pending : List Pending} {t : Token}
    {opens' : List (Delimiter × Span)} (h : opensAfter (opens pending) t = some opens')
    (done : List Nest) :
    ∃ pending' done', opens pending' = opens' ∧
      ∀ ts, build pending done (significant (t :: ts)) = build pending' done' (significant ts) := by
  by_cases hd : t.kind.isDelimiter
  · obtain ⟨kind, span⟩ := t
    cases kind with
    | opener d =>
      obtain rfl := Option.some.inj h
      exact ⟨⟨d, span, done⟩ :: pending, [], rfl, fun ts => rfl⟩
    | closer d =>
      cases pending with
      | nil => cases h
      | cons innermost outer =>
        obtain ⟨rfl, rfl⟩ : innermost.delimiter = d ∧ opens outer = opens' := by
          simpa [opensAfter, opens] using h
        refine ⟨outer, .group innermost.delimiter innermost.opening span done.reverse ::
          innermost.before, rfl, fun ts => ?_⟩
        exact if_pos rfl
    | _ => cases hd
  · rw [opensAfter_of_not_delimiter _ (by simpa using hd)] at h
    refine ⟨pending, if t.kind.isTrivia ∨ t.kind = .endOfText then done else .token t :: done,
      Option.some.inj h, fun ts => ?_⟩
    rw [significant, List.filter_cons, ← significant]
    by_cases hskip : t.kind.isTrivia ∨ t.kind = .endOfText
    · rw [if_neg (by simpa [or_iff_not_imp_left] using hskip), if_pos hskip]
    · rw [if_pos (by simpa [not_or] using hskip), if_neg hskip, build_token (by simpa using hd)]

private theorem exists_build_append {ts : List Token} (pending : List Pending)
    {opens' : List (Delimiter × Span)} (h : ts.foldlM opensAfter (opens pending) = some opens')
    (done : List Nest) :
    ∃ pending' done', opens pending' = opens' ∧ ∀ us,
      build pending done (significant (ts ++ us)) = build pending' done' (significant us) := by
  induction ts generalizing pending done with
  | nil => exact ⟨pending, done, Option.some.inj h, fun us => rfl⟩
  | cons t ts ih =>
    rw [List.foldlM_cons, Option.bind_eq_bind, Option.bind_eq_some_iff] at h
    obtain ⟨opens₁, ht, hts⟩ := h
    obtain ⟨pending₁, done₁, rfl, hstep⟩ := exists_build_cons ht done
    obtain ⟨pending₂, done₂, hlast, hrun⟩ := ih pending₁ hts done₁
    refine ⟨pending₂, done₂, hlast, fun us => ?_⟩
    rw [List.cons_append, hstep, hrun]

private theorem exists_ofTokens {ts : List Token} (h : LeavesOpen ts []) :
    ∃ ns, ofTokens (significant ts) = .ok ns := by
  obtain ⟨pending, done, hnone, hrun⟩ := exists_build_append [] (leavesOpen_iff.1 h) []
  obtain rfl : pending = [] := List.map_eq_nil_iff.1 hnone
  refine ⟨done.reverse, ?_⟩
  have := hrun []
  rwa [List.append_nil] at this

private theorem ofTokens_of_leavesOpen {ts : List Token} {opens : List (Delimiter × Span)}
    {d : Delimiter} {o : Span} (h : LeavesOpen ts ((d, o) :: opens)) :
    ofTokens (significant ts) = .error (.unclosedDelimiter o) := by
  obtain ⟨pending, done, hsome, hrun⟩ := exists_build_append [] (leavesOpen_iff.1 h) []
  obtain ⟨innermost, outer, rfl, hinnermost, -⟩ := List.map_eq_cons_iff.1 hsome
  obtain ⟨rfl, rfl⟩ := Prod.mk.inj hinnermost
  have := hrun []
  rwa [List.append_nil] at this

private theorem ofTokens_of_misfit {before after : List Token} {opens : List (Delimiter × Span)}
    {d : Delimiter} {span : Span} (h : LeavesOpen before opens)
    (hmisfit : opens.head?.map Prod.fst ≠ some d) :
    ofTokens (significant (before ++ ⟨.closer d, span⟩ :: after)) =
      .error (.mismatchedDelimiter (opens.head?.map Prod.fst) span) := by
  obtain ⟨pending, done, rfl, hrun⟩ := exists_build_append [] (leavesOpen_iff.1 h) []
  rw [ofTokens, hrun]
  cases pending with
  | nil => rfl
  | cons innermost outer =>
    have hne : innermost.delimiter ≠ d := by simpa [Nest.opens] using hmisfit
    exact if_neg hne

end Nest

theorem unterminated?_significant (ts : List Token) :
    unterminated? (significant ts) = unterminated? ts := by
  induction ts with
  | nil => rfl
  | cons t ts ih =>
    obtain ⟨kind, span⟩ := t
    rw [significant, List.filter_cons, ← significant]
    split
    · cases kind with
      | unterminated literal => rfl
      | _ => exact ih
    · rename_i hskip
      cases kind with
      | unterminated literal => exact absurd rfl hskip
      | _ => exact ih

theorem unterminated?_eq_some_iff (ts : List Token) (fault : Fault) :
    unterminated? ts = some fault ↔ ∃ before literal span after,
      ts = before ++ ⟨.unterminated literal, span⟩ :: after ∧
      (∀ t ∈ before, ¬IsUnterminated t.kind) ∧ fault = .unterminatedLiteral literal span := by
  constructor
  · intro h
    induction ts with
    | nil => cases h
    | cons t ts ih =>
      obtain ⟨kind, span⟩ := t
      by_cases hkind : IsUnterminated kind
      · obtain ⟨literal, rfl⟩ := hkind
        exact ⟨[], literal, span, ts, rfl, by simp, (Option.some.inj h).symm⟩
      · have hts : unterminated? ts = some fault := by
          cases kind with
          | unterminated literal => exact absurd ⟨literal, rfl⟩ hkind
          | _ => exact h
        obtain ⟨before, literal, span', after, rfl, hfirst, hfault⟩ := ih hts
        refine ⟨⟨kind, span⟩ :: before, literal, span', after, rfl, ?_, hfault⟩
        rw [List.forall_mem_cons]
        exact ⟨hkind, hfirst⟩
  · rintro ⟨before, literal, span, after, rfl, hfirst, rfl⟩
    induction before with
    | nil => rfl
    | cons t before ih =>
      obtain ⟨kind, span'⟩ := t
      rw [List.forall_mem_cons] at hfirst
      have hbefore := ih hfirst.2
      cases kind with
      | unterminated literal' => exact absurd ⟨literal', rfl⟩ hfirst.1
      | _ => exact hbefore

section
variable {ts : List Token} {fault : Fault}

private theorem checked_of_unterminated? (h : unterminated? ts = some fault) :
    checked (significant ts) = .error fault := by
  rw [checked, unterminated?_significant, h]

theorem checked_of_terminated (h : ∀ t ∈ ts, ¬IsUnterminated t.kind) :
    checked (significant ts) = (Nest.ofTokens (significant ts)).map fun _ => significant ts := by
  rw [checked, unterminated?_significant, (unterminated?_eq_none_iff _).2 h]
  cases Nest.ofTokens (significant ts) <;> rfl

theorem checked_of_wellFormed (hterm : ∀ t ∈ ts, ¬IsUnterminated t.kind)
    (hopen : LeavesOpen ts []) : checked (significant ts) = .ok (significant ts) := by
  obtain ⟨ns, hns⟩ := Nest.exists_ofTokens hopen
  rw [checked_of_terminated hterm, hns]
  rfl

/-- What is at fault is what the checks report. -/
theorem AtFault.checked_eq (h : AtFault ts fault) : checked (significant ts) = .error fault := by
  cases h with
  | literal hts hfirst =>
    exact checked_of_unterminated? ((unterminated?_eq_some_iff _ _).2 ⟨_, _, _, _, hts, hfirst, rfl⟩)
  | closer hterm hts hopen hmisfit =>
    rw [checked_of_terminated hterm, hts, Nest.ofTokens_of_misfit hopen hmisfit]
    rfl
  | opener hterm hopen =>
    rw [checked_of_terminated hterm, Nest.ofTokens_of_leavesOpen hopen]
    rfl

/-- A script that is not well-formed is at fault in one of the three ways. -/
theorem exists_atFault (ts : List Token) :
    ((∀ t ∈ ts, ¬IsUnterminated t.kind) ∧ LeavesOpen ts []) ∨ ∃ fault, AtFault ts fault := by
  cases hliteral : unterminated? ts with
  | some fault =>
    obtain ⟨before, literal, span, after, hts, hfirst, -⟩ :=
      (unterminated?_eq_some_iff ts fault).1 hliteral
    exact .inr ⟨_, .literal hts hfirst⟩
  | none =>
    have hterm := (unterminated?_eq_none_iff ts).1 hliteral
    cases hopens : ts.foldlM opensAfter [] with
    | none =>
      obtain ⟨before, opens, d, span, after, hts, hopen, hmisfit⟩ := exists_misfit hopens
      refine .inr ⟨_, .closer hterm hts hopen ((opensAfter_closer_eq_none_iff _ _ _).1 hmisfit) ?_⟩
      intro earlier opens' d' span' hearlier hopen'
      exact hopen.fits hearlier hopen'
    | some opens =>
      cases opens with
      | nil => exact .inl ⟨hterm, leavesOpen_iff.2 hopens⟩
      | cons innermost outer => exact .inr ⟨_, .opener hterm (leavesOpen_iff.2 hopens)⟩

theorem atFault_iff : AtFault ts fault ↔ checked (significant ts) = .error fault := by
  refine ⟨AtFault.checked_eq, fun h => ?_⟩
  rcases exists_atFault ts with ⟨hterm, hopen⟩ | ⟨fault', hfault⟩
  · rw [checked_of_wellFormed hterm hopen] at h
    cases h
  · rw [hfault.checked_eq] at h
    obtain rfl := Except.error.inj h
    exact hfault

end

section
variable {source : String}

/-- What is at fault is what the script is refused for. -/
theorem AtFault.tokens_eq {fault : Fault} (h : AtFault (lex .byContext source) fault) :
    tokens source = .error fault :=
  h.checked_eq

theorem tokens_of_wellFormed (hterm : ∀ t ∈ lex .byContext source, ¬IsUnterminated t.kind)
    (hopen : LeavesOpen (lex .byContext source) []) :
    tokens source = .ok (significant (lex .byContext source)) :=
  checked_of_wellFormed hterm hopen

end

/-- A script has tokens just if every literal is terminated and the delimiters are balanced. Of the
others the fault is the first unterminated literal, or else the first closing delimiter that does
not fit, with the one that would, or else the innermost delimiter left open. -/
theorem tokens_checked (source : String) :
    ((∃ ts, tokens source = .ok ts) ↔
      (∀ t ∈ lex .byContext source, ¬IsUnterminated t.kind) ∧
        Balanced (delimiters (lex .byContext source))) ∧
    (∀ fault, tokens source = .error fault ↔ AtFault (lex .byContext source) fault) ∧
    ∀ span, (∀ d, (Fault.mismatchedDelimiter (some d) span).label.text =
        "Expected '" ++ String.singleton d.closing ++ "' here") ∧
      (Fault.mismatchedDelimiter none span).label.text =
        "Expected no closing delimiter here" := by
  refine ⟨?_, ?_, ?_⟩
  · rw [balanced_delimiters_iff]
    constructor
    · rintro ⟨ts, hts⟩
      rcases exists_atFault (lex .byContext source) with ⟨hterm, hopen⟩ | ⟨fault, hfault⟩
      · exact ⟨hterm, leavesOpen_nil_iff.1 hopen⟩
      · rw [hfault.tokens_eq] at hts
        cases hts
    · rintro ⟨hterm, hbalanced⟩
      exact ⟨_, tokens_of_wellFormed hterm (.nothing hbalanced)⟩
  · intro fault
    constructor
    · intro h
      rcases exists_atFault (lex .byContext source) with ⟨hterm, hopen⟩ | ⟨fault', hfault⟩
      · rw [tokens_of_wellFormed hterm hopen] at h
        cases h
      · rw [hfault.tokens_eq] at h
        obtain rfl := Except.error.inj h
        exact hfault
    · exact AtFault.tokens_eq
  · intro span
    refine ⟨fun d => ?_, rfl⟩
    cases d <;> rfl

end DesignTokens.Script
