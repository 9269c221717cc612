import DesignTokens.Proofs.Script.Accepted
import DesignTokens.Proofs.Script.CursorReading
import DesignTokens.Proofs.Script.Tiling

/-! # The parser comes to an end

From every position and at every depth a reader either fails or moves forward. The steps that it
takes are bounded by the number of tokens, since every call is made behind a token that was read, or
at the same token by one of few readers. -/
namespace DesignTokens.Script

namespace Stream

/-- A call comes to an end. It fails where the parser reads nothing, and otherwise it gives what the
parser reads, at a position behind the one where it began and not behind the last token. -/
inductive Ends (s : Stream) (p : Nat) {α : Type} :
    Except Failure (α × List Token) → Halt α → Prop
  | done (value : α) {q : Nat} (hlt : p < q) (hle : q ≤ s.tokens.length) :
      Ends s p (.ok (value, s.tokens.drop q)) (.done value ⟨q, none⟩)
  | failed (failure : Failure) (c : Cursor) : Ends s p (.error failure) (.failed c)

/-- What is behind the partner of the first delimiter. -/
def skippedOutcome (ts : List Token) : Except Failure (Unit × List Token) :=
  match Parser.skipped 0 ts with
  | none => .error .mismatch
  | some left => .ok ((), left)

/-- The readers come to an end at a position. -/
structure ReadersEnd (s : Stream) (steps p depth : Nat) : Prop where
  object : s.Ends p (plain (Parser.object depth (s.tokens.drop p))) (s.object steps depth ⟨p, none⟩)
  array : s.Ends p (plain (Parser.array depth (s.tokens.drop p))) (s.array steps depth ⟨p, none⟩)
  member : s.Ends p (plain (Parser.member depth (s.tokens.drop p))) (s.member steps depth ⟨p, none⟩)
  method : s.Ends p (plain (Parser.method depth (s.tokens.drop p))) (s.method steps depth ⟨p, none⟩)
  value : s.Ends p (plain (Parser.value depth (s.tokens.drop p))) (s.value steps depth ⟨p, none⟩)
  dynamic : s.Ends p
    (plain (Parser.dynamic depth (s.current ⟨p, none⟩).span.start (s.tokens.drop p)))
    (s.dynamic steps depth (s.current ⟨p, none⟩).span.start ⟨p, none⟩)
  skipBalanced : s.Ends p (skippedOutcome (s.tokens.drop p))
    ((s.skipBalanced steps 0 ⟨p, none⟩).map fun _ => ())

/-- The search for objects comes to an end. It gives all of them, or it fails at the first object or
array that is too deep, whose position is known. -/
inductive DocumentEnds (s : Stream) : Except Fault (List Expr) → Halt (List Expr) → Prop
  | done (found : List Expr) (c : Cursor) : DocumentEnds s (.ok found) (.done found c)
  | tooDeep {t : Token} {q i : Nat} (h : s.tokens[i]? = some t) :
      DocumentEnds s (.error (.nestingTooDeep t.span.start)) (.failed ⟨q, some i⟩)

variable {s : Stream} {p : Nat}

private theorem Ends.of_lt {α : Type} {value : α} {left : List Token} {h : Halt α}
    (hf : s.Follows p (.ok (value, left)) h) (hlt : left.length < (s.tokens.drop p).length) :
    s.Ends p (.ok (value, left)) h := by
  obtain ⟨q, hq, rfl, rfl⟩ := hf.exists_of_ok
  rw [List.length_drop, List.length_drop] at hlt
  exact .done value (by omega) (by omega)

/-- What a reader leaves is less than what it was given. -/
theorem Follows.ends {α : Type} {o : Parser.Outcome α (s.tokens.drop p)} {h : Halt α}
    (hf : s.Follows p (plain o) h) : s.Ends p (plain o) h := by
  cases o with
  | error failure =>
    rw [plain_error] at hf ⊢
    cases hf with
    | failed => exact .failed _ _
    | tooDeep => exact .failed _ _
  | ok result =>
    obtain ⟨value, rest⟩ := result
    exact .of_lt hf rest.2

/-- No group begins with the token at the end. -/
theorem group_of_nil {α : Type} {delimiter : Delimiter} {depth : Nat} {make : Text.Span → α → Expr}
    {inside : Cursor → Halt (α × Nat)} (h : s.tokens.drop p = []) :
    ∃ c, s.group delimiter depth make inside ⟨p, none⟩ = .failed c := by
  rw [group, check_of_nil h (by simp)]
  split
  · exact ⟨_, rfl⟩
  · exact ⟨_, rfl⟩

private theorem object_ends {steps depth : Nat}
    (hf : (Call.object depth (s.tokens.drop p)).Follows s (steps + 1) p) :
    s.Ends p (plain (Parser.object depth (s.tokens.drop p)))
      (s.object (steps + 1) depth ⟨p, none⟩) := by
  by_cases hnil : s.tokens.drop p = []
  · obtain ⟨c, hc⟩ := group_of_nil hnil
    rw [hnil, Parser.object, object, hc]
    exact .failed _ c
  · exact (hf hnil rfl).ends

private theorem array_ends {steps depth : Nat}
    (hf : (Call.array depth (s.tokens.drop p)).Follows s (steps + 1) p) :
    s.Ends p (plain (Parser.array depth (s.tokens.drop p)))
      (s.array (steps + 1) depth ⟨p, none⟩) := by
  by_cases hnil : s.tokens.drop p = []
  · obtain ⟨c, hc⟩ := group_of_nil hnil
    rw [hnil, Parser.array, array, hc]
    exact .failed _ c
  · exact (hf hnil rfl).ends

private theorem skipBalanced_ends {steps : Nat} (hsteps : (s.tokens.drop p).length < steps) :
    s.Ends p (skippedOutcome (s.tokens.drop p))
      ((s.skipBalanced steps 0 ⟨p, none⟩).map fun _ => ()) := by
  rw [skippedOutcome, Parser.skipped]
  cases hskip : Parser.skipBalanced 0 (s.tokens.drop p) with
  | none =>
    obtain ⟨q, hq⟩ := skipBalanced_of_none rfl hsteps hskip
    rw [hq]
    exact .failed _ _
  | some rest =>
    obtain ⟨stop, q, hle, hrest, hq⟩ := skipBalanced_of_some rfl hsteps hskip
    rw [hq]
    exact .of_lt (.done_of () (by omega) hrest) rest.2

/-- A number of steps that depends on how many tokens there are suffices for every reader. -/
theorem readersEnd {steps : Nat} (hsteps : 8 * s.tokens.length + 5 < steps) (p depth : Nat) :
    ReadersEnd s steps p depth := by
  obtain ⟨steps, rfl⟩ := Nat.exists_eq_succ_of_ne_zero (Nat.ne_zero_of_lt hsteps)
  have hlength : (s.tokens.drop p).length ≤ s.tokens.length := by
    rw [List.length_drop]
    omega
  have hcall (c : Call) (hc : c.measure ≤ 8 * (s.tokens.drop p).length + 5) :
      c.Follows s (steps + 1) p :=
    s.allFollow _ c (by omega) p
  have hstart : ∀ t ∈ (s.tokens.drop p).head?,
      (s.current ⟨p, none⟩).span.start = t.span.start ∨ t.kind = .opener .brace := by
    intro t ht
    obtain ⟨ts, hts⟩ := List.head?_eq_some_iff.1 ht
    rw [current_of_cons hts]
    exact .inl rfl
  exact {
    object := object_ends (hcall (.object depth _) (by simp [Call.measure]))
    array := array_ends (hcall (.array depth _) (by simp [Call.measure]))
    member := (hcall (.member depth _) (by simp [Call.measure]) rfl).ends
    method := (hcall (.method depth _) (by simp [Call.measure]) rfl).ends
    value := (hcall (.value depth _) (by simp [Call.measure]) rfl).ends
    dynamic := (hcall (.dynamic depth _ _) (by simp [Call.measure]) hstart rfl).ends
    skipBalanced := skipBalanced_ends (by omega) }

end Stream

/-- The tokens of every script that mean something end with the only empty one. -/
theorem exists_stream (source : String) : ∃ s : Stream,
    s.tokens = significant (lex .byContext source) ∧
      s.tokens ++ [s.last] = (lex .byContext source).filter fun t => !t.kind.isTrivia := by
  have hcuts : Cuts [] source.toList (lex .byContext source) :=
    cuts_lexFrom .byContext none [] source.toList
  obtain ⟨ts, last, hlex, hlast, hkind⟩ : ∃ ts last, lex .byContext source = ts ++ [last] ∧
      last.kind = .endOfText ∧ ∀ t ∈ ts, t.kind ≠ .endOfText :=
    ⟨_, _, (List.dropLast_append_getLast? _ hcuts.getLast?).symm, rfl,
      fun t ht => (hcuts.progress t ht).2⟩
  have hsignificant :
      significant (lex .byContext source) = ts.filter fun t => !t.kind.isTrivia := by
    have hts : significant ts = ts.filter fun t => !t.kind.isTrivia :=
      List.filter_congr fun t ht => by simp [hkind t ht]
    have hend : significant [last] = [] := by simp [significant, hlast]
    rw [hlex, significant_append, hts, hend, List.append_nil]
  have hkept : [last].filter (fun t => !t.kind.isTrivia) = [last] := by
    simp [hlast, TokenKind.isTrivia]
  refine ⟨⟨significant (lex .byContext source), last, hlast, ?_⟩, rfl, ?_⟩
  · intro t ht
    rw [hsignificant] at ht
    exact hkind t (List.mem_filter.1 ht).1
  · change significant (lex .byContext source) ++ [last] = _
    rw [hsignificant, hlex, List.filter_append, hkept]

theorem documentEnds {source : String} {s : Stream} (hs : tokens source = .ok s.tokens)
    {steps : Nat} (hsteps : 8 * s.tokens.length + 7 < steps) :
    s.DocumentEnds (document source) (s.document steps ⟨0, none⟩) := by
  have hroots := s.allFollow steps (.roots s.tokens) hsteps 0 List.drop_zero
  rw [rootsOutcome] at hroots
  cases hr : Parser.roots s.tokens with
  | ok found =>
    rw [hr] at hroots
    obtain ⟨q, -, -, hdone⟩ := hroots.exists_of_ok
    simp only [document, hs, hr, hdone]
    exact .done found _
  | error start =>
    rw [hr] at hroots
    simp only [document, hs, hr]
    generalize s.document steps ⟨0, none⟩ = h at hroots
    cases hroots with
    | tooDeep q ht =>
      refine .tooDeep ?_
      rw [← List.head?_drop, ht, List.head?_cons]

/-- The parser comes to an end. From every position among tokens that end with the only empty one,
balanced or not, and at every depth, each reader fails or moves forward to a position that is not
behind the last token, and no level falls below zero. So the search for objects comes to an end in
every script whose literals and delimiters are closed. -/
theorem parser_terminates :
    (∀ (s : Stream) (p depth steps : Nat), 8 * s.tokens.length + 5 < steps →
      s.ReadersEnd steps p depth) ∧
    ∀ (source : String) (ts : List Token), tokens source = .ok ts →
      ∃ s : Stream, s.tokens = ts ∧
        s.tokens ++ [s.last] = (lex .byContext source).filter (fun t => !t.kind.isTrivia) ∧
        ∀ steps, 8 * s.tokens.length + 7 < steps →
          s.DocumentEnds (document source) (s.document steps ⟨0, none⟩) := by
  refine ⟨fun s p depth steps hsteps => Stream.readersEnd hsteps p depth, ?_⟩
  intro source ts hts
  obtain ⟨s, hs, hlast⟩ := exists_stream source
  have htokens : s.tokens = ts := hs.trans ((tokens_eq_ok_iff source ts).1 hts).1
  refine ⟨s, htokens, hlast, fun steps hsteps => ?_⟩
  subst htokens
  exact documentEnds hts hsteps

/-- A parenthesis that a bracket closes, in an object that nothing closes. -/
def unclosed : Stream where
  tokens := [⟨.opener .brace, ⟨0, 1⟩⟩, ⟨.identifier "a", ⟨1, 2⟩⟩, ⟨.colon, ⟨2, 3⟩⟩,
    ⟨.opener .parenthesis, ⟨3, 4⟩⟩, ⟨.semicolon, ⟨4, 5⟩⟩, ⟨.closer .bracket, ⟨5, 6⟩⟩]
  last := ⟨.endOfText, ⟨6, 6⟩⟩
  last_kind := rfl
  kind_ne := by decide

/-- The member is read up to the end, and the object fails there. -/
theorem parser_terminates_unclosed :
    unclosed.ReadersEnd 60 1 7 ∧
      unclosed.member 60 7 ⟨1, none⟩ =
        .done (.pair (some "a") (.dynamic ⟨3, 6⟩ [])) ⟨6, none⟩ ∧
      unclosed.object 60 7 ⟨0, none⟩ = .failed ⟨6, none⟩ ∧
      ∃ s : Stream, s.tokens.length = 7 ∧
        s.DocumentEnds (.ok [.object ⟨2, 9⟩ [.pair (some "a") (.string ⟨5, 8⟩ "b")]])
          (s.document 64 ⟨0, none⟩) := by
  have htokens : tokens "x=\x7ba:'b'\x7d" =
      .ok [⟨.identifier "x", ⟨0, 1⟩⟩, ⟨.punct '=', ⟨1, 2⟩⟩, ⟨.opener .brace, ⟨2, 3⟩⟩,
        ⟨.identifier "a", ⟨3, 4⟩⟩, ⟨.colon, ⟨4, 5⟩⟩, ⟨.string "b", ⟨5, 8⟩⟩,
        ⟨.closer .brace, ⟨8, 9⟩⟩] := by
    decide +kernel
  have hdocument : document "x=\x7ba:'b'\x7d" =
      .ok [.object ⟨2, 9⟩ [.pair (some "a") (.string ⟨5, 8⟩ "b")]] := by
    rw [document, htokens]
    with_unfolding_all rfl
  obtain ⟨s, hs, -, hends⟩ := parser_terminates.2 _ _ htokens
  rw [hdocument, hs] at hends
  have hlength : s.tokens.length = 7 := by
    rw [hs]
    rfl
  refine ⟨parser_terminates.1 unclosed 1 7 60 (by simp [unclosed]), ?_, ?_, s, hlength,
    hends 64 (by simp)⟩
  · with_unfolding_all rfl
  · with_unfolding_all rfl

end DesignTokens.Script
