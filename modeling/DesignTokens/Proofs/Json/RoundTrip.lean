import DesignTokens.Proofs.Overlay
import DesignTokens.Json.Reader

/-! # Reading back compact texts

What follows a value is left where it is, so that the parts of a text are read back one after the
other. -/
namespace DesignTokens.Json

/-- The value is read, and this much of the text is left. -/
def Outcome.Gives {α : Type} {cs : List Char} (o : Outcome α cs) (value : α) (left : List Char) :
    Prop :=
  ∃ rest, o = .ok (value, rest) ∧ rest.1 = left

namespace Outcome.Gives
variable {α β : Type} {cs ds left : List Char} {value : α}

theorem widen {o : Outcome α ds} (h : o.Gives value left) (hl : ds.length ≤ cs.length) :
    (o.widen hl : Outcome α cs).Gives value left := by
  obtain ⟨rest, rfl, hrest⟩ := h
  exact ⟨_, rfl, hrest⟩

theorem mapValue {o : Outcome α cs} (h : o.Gives value left) (f : α → β) :
    (o.mapValue f).Gives (f value) left := by
  obtain ⟨rest, rfl, hrest⟩ := h
  exact ⟨_, rfl, hrest⟩

end Outcome.Gives

/-- The characters that are escaped by a letter, with their letters. -/
def letters : List (Char × Char) :=
  [('"', '"'), ('\\', '\\'), ('\x08', 'b'), ('\x0c', 'f'), ('\n', 'n'), ('\r', 'r'), ('\t', 't')]

/-- The ways in which a character is spelled inside a string. -/
inductive Spelling (c : Char) : List Char → Prop
  | letter {l : Char} (h : (c, l) ∈ letters) : Spelling c ['\\', l]
  | control (h : c.toNat < 32) :
      Spelling c ['\\', 'u', '0', '0', hexDigit (c.toNat / 16), hexDigit (c.toNat % 16)]
  | plain (hq : c ≠ '"') (hb : c ≠ '\\') (hc : 32 ≤ c.toNat) : Spelling c [c]

theorem spelling_escape (c : Char) : Spelling c (escape c) := by
  unfold escape
  split
  case h_8 =>
    rename_i hq hb _ _ _ _ _
    split
    · rename_i hc
      exact .control hc
    · rename_i hc
      exact .plain hq hb (Nat.le_of_not_lt hc)
  all_goals exact .letter (by decide)

namespace Reader

theorem hexDigit?_hexDigit : ∀ n < 16, hexDigit? (hexDigit n) = some n := by decide

/-- The four digits of a control character. -/
theorem hexEscape_gives {n : Nat} (hn : n < 32) (left : List Char) :
    (hexEscape ('0' :: '0' :: hexDigit (n / 16) :: hexDigit (n % 16) :: left)).Gives n left := by
  have hzero : hexDigit? '0' = some 0 := by decide
  have hhigh := hexDigit?_hexDigit (n / 16) (by omega)
  have hlow := hexDigit?_hexDigit (n % 16) (Nat.mod_lt n (by decide))
  have hvalue : ((0 * 16 + 0) * 16 + n / 16) * 16 + n % 16 = n := by omega
  refine ⟨⟨left, by simp; omega⟩, ?_, rfl⟩
  simp only [hexEscape, hzero, hhigh, hlow, hvalue]

section
variable {c : Char} {cs ds tail left : List Char}

private theorem characters_quote (left : List Char) :
    (characters .kept ('"' :: left)).Gives [] left := by
  refine ⟨_, ?_, Rest.tail_val '"' left⟩
  rw [characters]

theorem characters_escaped (he : (escape .kept cs).Gives c ds)
    (ht : (characters .kept ds).Gives tail left) :
    (characters .kept ('\\' :: cs)).Gives (c :: tail) left := by
  obtain ⟨rest, he, rfl⟩ := he
  obtain ⟨last, ht, rfl⟩ := ht
  rw [characters, he]
  dsimp only
  rw [ht]
  exact ⟨_, rfl, rfl⟩

private theorem characters_plain (hq : c ≠ '"') (hb : c ≠ '\\') (hc : 32 ≤ c.toNat)
    (ht : (characters .kept cs).Gives tail left) :
    (characters .kept (c :: cs)).Gives (c :: tail) left := by
  obtain ⟨last, ht, rfl⟩ := ht
  rw [characters, if_neg (Nat.not_lt.2 hc), ht]
  · exact ⟨_, rfl, rfl⟩
  · exact hq
  · exact hb

/-- A character whose escape is a letter. -/
theorem escape_letter {l : Char} (h : (c, l) ∈ letters) (cs : List Char) :
    (escape .kept (l :: cs)).Gives c cs := by
  simp only [letters, List.mem_cons, Prod.mk.injEq, List.not_mem_nil, or_false] at h
  rcases h with ⟨rfl, rfl⟩ | ⟨rfl, rfl⟩ | ⟨rfl, rfl⟩ | ⟨rfl, rfl⟩ | ⟨rfl, rfl⟩ | ⟨rfl, rfl⟩ |
    ⟨rfl, rfl⟩
  all_goals exact ⟨_, rfl, rfl⟩

private theorem escape_control (h : c.toNat < 32) (cs : List Char) :
    (escape .kept ('u' :: '0' :: '0' :: hexDigit (c.toNat / 16) :: hexDigit (c.toNat % 16) ::
      cs)).Gives c cs := by
  obtain ⟨rest, hhex, hrest⟩ := hexEscape_gives h cs
  have hunicode : (unicodeEscape .kept
      ('0' :: '0' :: hexDigit (c.toNat / 16) :: hexDigit (c.toNat % 16) :: cs)).Gives c cs := by
    have hlow : ¬(0xDC00 ≤ c.toNat ∧ c.toNat ≤ 0xDFFF) := by omega
    have hhigh : ¬(0xD800 ≤ c.toNat ∧ c.toNat ≤ 0xDBFF) := by omega
    refine ⟨rest, ?_, hrest⟩
    rw [unicodeEscape, hhex]
    dsimp only
    rw [if_neg (by decide), if_neg hlow, if_neg hhigh, Char.ofNat_toNat]
  exact hunicode.widen (by simp)

/-- The spelling of a character is read back as that character. -/
theorem characters_escape (c : Char) (ht : (characters .kept cs).Gives tail left) :
    (characters .kept (Json.escape c ++ cs)).Gives (c :: tail) left := by
  have hs := spelling_escape c
  generalize Json.escape c = text at hs ⊢
  cases hs with
  | letter h => exact characters_escaped (escape_letter h cs) ht
  | control h => exact characters_escaped (escape_control h cs) ht
  | plain hq hb hc => exact characters_plain hq hb hc ht

end

private theorem characters_flatMap_escape (cs left : List Char) :
    (characters .kept (cs.flatMap Json.escape ++ '"' :: left)).Gives cs left := by
  induction cs with
  | nil => exact characters_quote left
  | cons c cs ih =>
    rw [List.flatMap_cons, List.append_assoc]
    exact characters_escape c ih

theorem stringTail_gives (text : String) (left : List Char) :
    (stringTail .kept (text.toList.flatMap Json.escape ++ '"' :: left)).Gives text left := by
  have h := (characters_flatMap_escape text.toList left).mapValue String.ofList
  rwa [String.ofList_toList] at h

theorem valueWith_string (inner : Option (Reader Value)) (text : String) (left : List Char) :
    (valueWith .kept inner (quoted text ++ left)).Gives (.string text) left := by
  have h := (stringTail_gives text left).mapValue Value.string
  rw [quoted, List.cons_append, List.append_assoc]
  exact (h.widen (Nat.le_succ _)).widen (Nat.le_refl _)

theorem valueWith_object {inner : Reader Value} {cs left : List Char}
    {ms : List (String × Value)}
    (h : (members .kept
      (fun entries key cs =>
        (behindColon inner cs).mapValue fun value => entries ++ [(key, value)])
      [] cs).Gives ms left) :
    (valueWith .kept (some inner) ('\x7b' :: cs)).Gives (.object ms) left :=
  ((h.mapValue Value.object).widen (Nat.le_succ _)).widen (Nat.le_refl _)

theorem behindColon_gives {α : Type} {read : Reader α} {cs left : List Char} {value : α}
    (h : (read cs).Gives value left) : (behindColon read (':' :: cs)).Gives value left :=
  (h.widen (Nat.le_succ _)).widen (Nat.le_refl _)

section
variable {σ : Type} {step : σ → String → Reader σ} {s s' s'' : σ} {key : String}
  {cs after behind more left : List Char}

private theorem membersFrom_last (hkey : (stringTail .kept cs).Gives key after)
    (hstep : (step s key after).Gives s' ('\x7d' :: left)) :
    (membersFrom .kept step s cs).Gives s' left := by
  obtain ⟨rest, hkey, rfl⟩ := hkey
  obtain ⟨behind, hstep, hbehind⟩ := hstep
  obtain ⟨last, hnext, hlast⟩ : ∃ last,
      nextMember '\x7d' (· = '"') behind.1 = .ok (.done last) ∧ last.1 = left := by
    rw [hbehind]
    exact ⟨⟨left, Nat.lt_succ_self _⟩, rfl, rfl⟩
  rw [membersFrom, hkey]
  dsimp only
  rw [hstep]
  dsimp only
  rw [hnext]
  exact ⟨_, rfl, hlast⟩

private theorem membersFrom_more (hkey : (stringTail .kept cs).Gives key after)
    (hstep : (step s key after).Gives s' (',' :: '"' :: more))
    (hmore : (membersFrom .kept step s' more).Gives s'' left) :
    (membersFrom .kept step s cs).Gives s'' left := by
  obtain ⟨rest, hkey, rfl⟩ := hkey
  obtain ⟨behind, hstep, hbehind⟩ := hstep
  obtain ⟨next, hnext, hlast⟩ : ∃ next,
      nextMember '\x7d' (· = '"') behind.1 = .ok (.member next) ∧ next.1.drop 1 = more := by
    rw [hbehind]
    exact ⟨⟨'"' :: more, Nat.lt_succ_self _⟩, rfl, rfl⟩
  rw [membersFrom, hkey]
  dsimp only
  rw [hstep]
  dsimp only
  rw [hnext]
  subst hlast
  exact hmore.widen _

/-- From one state to another over members whose values are read one after the other. -/
inductive Runs (step : σ → String → Reader σ) : σ → List (String × Value) → σ → Prop
  | nil {s : σ} : Runs step s [] s
  | cons {s s' s'' : σ} {key : String} {v : Value} {ms : List (String × Value)}
      (h : ∀ left, (step s key (':' :: (v.compact ++ left))).Gives s' left)
      (hrest : Runs step s' ms s'') : Runs step s ((key, v) :: ms) s''

/-- The members behind the opening quote of the first key. -/
theorem Runs.membersFrom {v : Value} {ms : List (String × Value)}
    (h : Runs step s ((key, v) :: ms) s') (left : List Char) :
    ∃ cs, Value.compactMembers ((key, v) :: ms) = '"' :: cs ∧
      (membersFrom .kept step s (cs ++ '\x7d' :: left)).Gives s' left := by
  induction ms generalizing s key v with
  | nil =>
    cases h with
    | cons hstep hrest =>
      cases hrest
      refine ⟨key.toList.flatMap Json.escape ++ '"' :: ':' :: v.compact, ?_, ?_⟩
      · simp [Value.compactMembers, quoted]
      rw [List.append_assoc]
      exact membersFrom_last (stringTail_gives key _) (hstep _)
  | cons m ms ih =>
    obtain ⟨k, w⟩ := m
    cases h with
    | cons hstep hrest =>
      obtain ⟨cs, hcs, hfrom⟩ := ih hrest
      refine ⟨key.toList.flatMap Json.escape ++ '"' :: ':' :: (v.compact ++ ',' :: '"' :: cs),
        ?_, ?_⟩
      · rw [Value.compactMembers, hcs, quoted]
        · simp
        · simp
      · have htext :
            key.toList.flatMap Json.escape ++ '"' :: ':' :: (v.compact ++ ',' :: '"' :: cs) ++
              '\x7d' :: left =
            key.toList.flatMap Json.escape ++ '"' :: ':' ::
              (v.compact ++ ',' :: '"' :: (cs ++ '\x7d' :: left)) := by simp
        rw [htext]
        exact membersFrom_more (stringTail_gives key _) (hstep _) hfrom

/-- The members behind the opening brace. -/
theorem Runs.members {ms : List (String × Value)} (h : Runs step s ms s') (left : List Char) :
    (members .kept step s (Value.compactMembers ms ++ '\x7d' :: left)).Gives s' left := by
  cases ms with
  | nil =>
    cases h
    exact ⟨⟨left, Nat.lt_succ_self _⟩, rfl, rfl⟩
  | cons m ms =>
    obtain ⟨key, v⟩ := m
    obtain ⟨cs, hcs, hfrom⟩ := h.membersFrom left
    rw [hcs]
    exact (hfrom.widen (Nat.le_succ _)).widen (Nat.le_refl _)

end

private theorem record_eq {σ : Type} (fields : List (Field σ)) (initial : σ) (nesting : Nat)
    (cs : List Char) :
    record fields initial (nesting + 1) ('\x7b' :: cs) =
      Outcome.widen (Nat.le_refl _)
        (match members .kept (fieldMember fields nesting) ([], initial) cs with
        | .error refusal => .error refusal
        | .ok ((given, state), last) =>
          if fields.all fun field => !field.required || given.contains field.name then
            .ok (state, last.widen (Nat.le_succ _))
          else .error .wrongShape) :=
  rfl

/-- A record is read from an object that has every field it needs. -/
theorem record_gives {σ : Type} {fields : List (Field σ)} {initial state : σ} {nesting : Nat}
    {ms : List (String × Value)} {given : List String}
    (h : Runs (fieldMember fields nesting) ([], initial) ms (given, state))
    (hall : fields.all fun field => !field.required || given.contains field.name)
    (left : List Char) :
    (record fields initial (nesting + 1) ((Value.object ms).compact ++ left)).Gives state left := by
  obtain ⟨rest, hmembers, hrest⟩ := h.members left
  rw [Value.compact, List.cons_append, List.append_assoc, List.singleton_append, record_eq,
    hmembers]
  dsimp only
  rw [if_pos hall]
  exact ⟨_, rfl, hrest⟩

section
variable {σ : Type} {fields : List (Field σ)} {nesting : Nat} {given : List String} {state : σ}
  {change : σ → σ} {cs left : List Char}

/-- A field that was not given before. -/
theorem fieldMember_gives (field : Field σ)
    (hfield : fields.find? (·.name = field.name) = some field) (hnew : field.name ∉ given)
    (h : (field.read nesting cs).Gives change left) :
    (fieldMember fields nesting (given, state) field.name (':' :: cs)).Gives
      (field.name :: given, change state) left := by
  have hcolon := (behindColon_gives h).mapValue fun change => (field.name :: given, change state)
  rw [fieldMember, hfield]
  dsimp only
  rwa [if_neg hnew]

theorem string_gives (nesting : Nat) (text : String) (left : List Char) :
    (string nesting (quoted text ++ left)).Gives text left := by
  have h := stringTail_gives text left
  rw [quoted, List.cons_append, List.append_assoc]
  exact (h.widen (Nat.le_succ _)).widen (Nat.le_refl _)

end

section
variable {α : Type} {entry : Shape α} {write : α → Value} {nesting : Nat}

private theorem runs_map (entries : List (String × α))
    (h : ∀ e ∈ entries, ∀ left, (entry nesting ((write e.2).compact ++ left)).Gives e.2 left)
    (m : OrderedMap α) (hn : ((m.entries ++ entries).map Prod.fst).Nodup) :
    Runs (fun m key cs => (behindColon (entry nesting) cs).mapValue fun v => m.insert key v)
      m (entries.map fun e => (e.1, write e.2)) ⟨m.entries ++ entries, hn⟩ := by
  induction entries generalizing m with
  | nil =>
    have hm : (⟨m.entries ++ [], hn⟩ : OrderedMap α) = m :=
      OrderedMap.ext_entries (List.append_nil _)
    rw [hm]
    exact .nil
  | cons e rest ih =>
    obtain ⟨key, value⟩ := e
    obtain ⟨hvalue, hrest⟩ := List.forall_mem_cons.1 h
    have hput : (m.insert key value).entries = m.entries ++ [(key, value)] :=
      OrderedMap.put_of_not_mem (OrderedMap.not_mem_of_nodup_append_cons hn) value
    have hall : (m.insert key value).entries ++ rest = m.entries ++ (key, value) :: rest := by
      rw [hput, ← List.append_cons]
    have hlast : (⟨m.entries ++ (key, value) :: rest, hn⟩ : OrderedMap α) =
        ⟨(m.insert key value).entries ++ rest, hall ▸ hn⟩ := OrderedMap.ext_entries hall.symm
    rw [hlast]
    exact .cons (fun left => (behindColon_gives (hvalue left)).mapValue _) (ih hrest _ _)

/-- A map whose values are read back from their texts is read back itself. -/
theorem map_gives (m : OrderedMap α)
    (h : ∀ e ∈ m.entries, ∀ left, (entry nesting ((write e.2).compact ++ left)).Gives e.2 left)
    (left : List Char) :
    (map entry (nesting + 1)
      ((Value.object (m.entries.map fun e => (e.1, write e.2))).compact ++ left)).Gives m left := by
  have hmembers := (runs_map m.entries h .empty m.keys_nodup).members left
  rw [Value.compact, List.cons_append, List.append_assoc]
  exact (hmembers.widen (Nat.le_succ _)).widen (Nat.le_refl _)

end

end Reader

/-- A text of one value. -/
theorem read_eq_ok {α : Type} {shape : Reader.Shape α} {text : List Char} {value : α}
    (h : (shape nestingLimit text).Gives value []) : read shape text = .ok value := by
  obtain ⟨rest, h, hrest⟩ := h
  have hblank : skipBlank rest.1 = [] := by
    rw [hrest]
    rfl
  rw [read, h]
  exact if_pos hblank

end DesignTokens.Json
