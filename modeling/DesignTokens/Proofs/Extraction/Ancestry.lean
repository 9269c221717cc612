import DesignTokens.Proofs.Extraction.Concatenation

/-! # The places at which tokens are declared

Of all the properties of a script only those below `theme` and `theme.extend` declare tokens. What a
script declares is laid together from them in the order in which they are written. -/
namespace DesignTokens
open Script (Expr Member)

namespace Script

/-- A property: where it stands, the names of the properties around it with its own one at the end,
and its value. The name of a computed key is unknown, so that it equals no other name. -/
structure Property where
  /-- The members and items on the way to the property, counted from zero in every object and every
  list. Places in lexicographic order are in the order of the text. -/
  place : List Nat
  names : List (Option String)
  value : Expr

/-- A property below the `i`-th member or item, inside of properties with further names. -/
def Property.within (i : Nat) (outer : List (Option String)) (p : Property) : Property :=
  { p with place := i :: p.place, names := outer ++ p.names }

/-- An expression has a property as its own one or somewhere inside. Only properties add a name:
spreads, items of arrays and expressions of unknown value do not. -/
inductive HasProperty : Expr → Property → Prop
  | own {span members i name value} (h : members[i]? = some (.pair name value)) :
      HasProperty (.object span members) ⟨[i], [name], value⟩
  | inValue {span members i name value p} (h : members[i]? = some (.pair name value))
      (hp : HasProperty value p) : HasProperty (.object span members) (p.within i [name])
  | inSpread {span members i value p} (h : members[i]? = some (.spread value))
      (hp : HasProperty value p) : HasProperty (.object span members) (p.within i [])
  | inArray {span items i item p} (h : items[i]? = some item) (hp : HasProperty item p) :
      HasProperty (.array span items) (p.within i [])
  | inDynamic {span found i item p} (h : found[i]? = some item) (hp : HasProperty item p) :
      HasProperty (.dynamic span found) (p.within i [])

/-- One of the roots of a document has a property. -/
def AnyHasProperty (roots : List Expr) (p : Property) : Prop :=
  ∃ i root q, roots[i]? = some root ∧ HasProperty root q ∧ p = q.within i []

mutual

/-- The properties of an expression in the order of the text. -/
def Expr.properties : Expr → List Property
  | .object _ members => memberProperties 0 members
  | .array _ items => itemProperties 0 items
  | .dynamic _ found => itemProperties 0 found
  | .string .. => []
  | .template .. => []
  | .number .. => []

/-- The properties of members, the first of which is the `i`-th one. -/
def memberProperties (i : Nat) : List Member → List Property
  | [] => []
  | .pair name value :: rest =>
    ⟨[i], [name], value⟩ :: value.properties.map (Property.within i [name]) ++
      memberProperties (i + 1) rest
  | .spread value :: rest =>
    value.properties.map (Property.within i []) ++ memberProperties (i + 1) rest

def itemProperties (i : Nat) : List Expr → List Property
  | [] => []
  | item :: rest =>
    item.properties.map (Property.within i []) ++ itemProperties (i + 1) rest

end

/-- Items are read like spreads: neither of them adds a name. -/
theorem itemProperties_eq (i : Nat) (es : List Expr) :
    itemProperties i es = memberProperties i (es.map .spread) := by
  induction es generalizing i with
  | nil => rfl
  | cons e es ih => rw [List.map_cons, itemProperties, memberProperties, ih]

section
variable {p : Property} {i : Nat}

theorem mem_memberProperties_iff {ms : List Member} : p ∈ memberProperties i ms ↔
    ∃ j, (∃ name value, ms[j]? = some (.pair name value) ∧
        (p = ⟨[i + j], [name], value⟩ ∨ ∃ q ∈ value.properties, p = q.within (i + j) [name])) ∨
      ∃ value, ms[j]? = some (.spread value) ∧ ∃ q ∈ value.properties, p = q.within (i + j) [] := by
  induction ms generalizing i with
  | nil => simp [memberProperties]
  | cons m ms ih =>
    have hsplit (P : Nat → Prop) : (∃ j, P j) ↔ P 0 ∨ ∃ j, P (j + 1) :=
      Nat.or_exists_add_one.symm
    rw [hsplit]
    simp only [List.getElem?_cons_zero, List.getElem?_cons_succ, Nat.add_zero, ← Nat.add_assoc,
      Nat.add_right_comm i _ 1, ← ih]
    cases m with
    | pair name value => simp [memberProperties, eq_comm, or_assoc]
    | spread value => simp [memberProperties, eq_comm]

theorem mem_itemProperties_iff {es : List Expr} : p ∈ itemProperties i es ↔
    ∃ j item, es[j]? = some item ∧ ∃ q ∈ Expr.properties item, p = q.within (i + j) [] := by
  rw [itemProperties_eq, mem_memberProperties_iff]
  simp [List.getElem?_map, Option.map_eq_some_iff]

end

theorem sizeOf_value_lt {m : Member} {ms : List Member} {i : Nat} (h : ms[i]? = some m) :
    sizeOf m.value < sizeOf ms := by
  have hlt := List.sizeOf_lt_of_mem (List.mem_of_getElem? h)
  cases m with
  | pair name value =>
    rw [Member.pair.sizeOf_spec] at hlt
    exact Nat.lt_of_le_of_lt (Nat.le_add_left _ _) hlt
  | spread value =>
    rw [Member.spread.sizeOf_spec] at hlt
    exact Nat.lt_of_le_of_lt (Nat.le_add_left _ _) hlt

theorem hasProperty_of_mem {e : Expr} {p : Property} (h : p ∈ e.properties) : HasProperty e p := by
  match e with
  | .string .. => simp [Expr.properties] at h
  | .template .. => simp [Expr.properties] at h
  | .number .. => simp [Expr.properties] at h
  | .array span items =>
    obtain ⟨i, item, hi, q, hq, rfl⟩ := mem_itemProperties_iff.1 h
    have := List.sizeOf_lt_of_mem (List.mem_of_getElem? hi)
    rw [Nat.zero_add]
    exact .inArray hi (hasProperty_of_mem hq)
  | .dynamic span found =>
    obtain ⟨i, item, hi, q, hq, rfl⟩ := mem_itemProperties_iff.1 h
    have := List.sizeOf_lt_of_mem (List.mem_of_getElem? hi)
    rw [Nat.zero_add]
    exact .inDynamic hi (hasProperty_of_mem hq)
  | .object span members =>
    obtain ⟨i, ⟨name, value, hi, rfl | ⟨q, hq, rfl⟩⟩ | ⟨value, hi, q, hq, rfl⟩⟩ :=
      mem_memberProperties_iff.1 h
    · rw [Nat.zero_add]
      exact .own hi
    · have : sizeOf value < sizeOf members := sizeOf_value_lt hi
      rw [Nat.zero_add]
      exact .inValue hi (hasProperty_of_mem hq)
    · have : sizeOf value < sizeOf members := sizeOf_value_lt hi
      rw [Nat.zero_add]
      exact .inSpread hi (hasProperty_of_mem hq)
termination_by e

/-- The properties are the ones that an expression has. -/
theorem mem_properties_iff {e : Expr} {p : Property} : p ∈ e.properties ↔ HasProperty e p := by
  refine ⟨hasProperty_of_mem, fun h => ?_⟩
  induction h with
  | own h =>
    exact mem_memberProperties_iff.2 ⟨_, .inl ⟨_, _, h, .inl (by rw [Nat.zero_add])⟩⟩
  | inValue h _ ih =>
    exact mem_memberProperties_iff.2 ⟨_, .inl ⟨_, _, h, .inr ⟨_, ih, by rw [Nat.zero_add]⟩⟩⟩
  | inSpread h _ ih =>
    exact mem_memberProperties_iff.2 ⟨_, .inr ⟨_, h, _, ih, by rw [Nat.zero_add]⟩⟩
  | inArray h _ ih =>
    exact mem_itemProperties_iff.2 ⟨_, _, h, _, ih, by rw [Nat.zero_add]⟩
  | inDynamic h _ ih =>
    exact mem_itemProperties_iff.2 ⟨_, _, h, _, ih, by rw [Nat.zero_add]⟩

theorem mem_itemProperties_zero_iff {roots : List Expr} {p : Property} :
    p ∈ itemProperties 0 roots ↔ AnyHasProperty roots p := by
  rw [mem_itemProperties_iff]
  simp [AnyHasProperty, mem_properties_iff]

/-- Properties in the order of the text. -/
def InOrder (ps : List Property) : Prop := ps.Pairwise fun p q => p.place < q.place

namespace InOrder
variable {i : Nat} {ps qs : List Property}

theorem within (h : InOrder ps) (i : Nat) (outer : List (Option String)) :
    InOrder (ps.map (Property.within i outer)) :=
  List.pairwise_map.2 (h.imp fun hlt => List.Lex.cons hlt)

/-- Everything below one member comes before everything below the later ones. -/
theorem append_later (hp : InOrder ps) (hq : InOrder qs)
    (hi : ∀ p ∈ ps, ∃ place, p.place = i :: place)
    (hlater : ∀ q ∈ qs, ∃ k place, q.place = k :: place ∧ i < k) : InOrder (ps ++ qs) := by
  refine List.pairwise_append.2 ⟨hp, hq, fun p hpm q hqm => ?_⟩
  obtain ⟨place, hplace⟩ := hi p hpm
  obtain ⟨k, place', hplace', hk⟩ := hlater q hqm
  rw [hplace, hplace']
  exact List.Lex.rel hk

end InOrder

/-- A property stands before the ones in its value. -/
theorem InOrder.own {e : Expr} (h : InOrder e.properties) (i : Nat) (name : Option String)
    (value : Expr) : InOrder (⟨[i], [name], value⟩ :: e.properties.map (.within i [name])) := by
  refine List.pairwise_cons.2 ⟨fun q hq => ?_, h.within i [name]⟩
  obtain ⟨p, hp, rfl⟩ := List.mem_map.1 hq
  refine List.Lex.cons ?_
  cases mem_properties_iff.1 hp <;> exact List.Lex.nil

theorem exists_place_of_mem {i : Nat} {ms : List Member} {p : Property}
    (h : p ∈ memberProperties (i + 1) ms) : ∃ k place, p.place = k :: place ∧ i < k := by
  obtain ⟨j, ⟨name, value, -, rfl | ⟨q, -, rfl⟩⟩ | ⟨value, -, q, -, rfl⟩⟩ :=
    mem_memberProperties_iff.1 h
  · exact ⟨_, _, rfl, by omega⟩
  · exact ⟨_, _, rfl, by omega⟩
  · exact ⟨_, _, rfl, by omega⟩

mutual

theorem inOrder_properties (e : Expr) : InOrder e.properties := by
  match e with
  | .string .. => exact .nil
  | .template .. => exact .nil
  | .number .. => exact .nil
  | .array _ items => exact inOrder_itemProperties 0 items
  | .dynamic _ found => exact inOrder_itemProperties 0 found
  | .object _ members => exact inOrder_memberProperties 0 members

theorem inOrder_memberProperties (i : Nat) (ms : List Member) :
    InOrder (memberProperties i ms) := by
  match ms with
  | [] => exact .nil
  | .pair name value :: rest =>
    refine ((inOrder_properties value).own i name value).append_later
      (inOrder_memberProperties (i + 1) rest) ?_ fun q hq => exists_place_of_mem hq
    intro p hp
    rcases List.mem_cons.1 hp with rfl | hp
    · exact ⟨[], rfl⟩
    · obtain ⟨q, -, rfl⟩ := List.mem_map.1 hp
      exact ⟨q.place, rfl⟩
  | .spread value :: rest =>
    refine ((inOrder_properties value).within i []).append_later
      (inOrder_memberProperties (i + 1) rest) ?_ fun q hq => exists_place_of_mem hq
    intro p hp
    obtain ⟨q, -, rfl⟩ := List.mem_map.1 hp
    exact ⟨q.place, rfl⟩

theorem inOrder_itemProperties (i : Nat) (es : List Expr) : InOrder (itemProperties i es) := by
  match es with
  | [] => exact .nil
  | e :: rest =>
    have hlater : ∀ q ∈ itemProperties (i + 1) rest, ∃ k place, q.place = k :: place ∧ i < k := by
      rw [itemProperties_eq]
      exact fun q hq => exists_place_of_mem hq
    refine ((inOrder_properties e).within i []).append_later
      (inOrder_itemProperties (i + 1) rest) ?_ hlater
    intro p hp
    obtain ⟨q, -, rfl⟩ := List.mem_map.1 hp
    exact ⟨q.place, rfl⟩

end

end Script

/-- The names of the properties around those that declare tokens. -/
def Origin.path : Origin → List String
  | override => ["theme"]
  | extend => ["theme", "extend"]

private theorem Origin.ofPath?_eq_some_iff {path : List String} {origin : Origin} :
    ofPath? path = some origin ↔ path = origin.path := by
  unfold ofPath?
  constructor
  · intro h
    split at h
    · cases h
      rfl
    · cases h
      rfl
    · cases h
  · rintro rfl
    cases origin <;> rfl

private theorem Family.ofName?_eq_some_iff {name : String} {family : Family} :
    ofName? name = some family ↔ name = family.name := by
  unfold ofName?
  constructor
  · intro h
    split at h
    · cases h
      rfl
    · cases h
      rfl
    · cases h
  · rintro rfl
    cases family <;> rfl

namespace Declaration

/-- What stands for a name in a path: one and the same text for every computed key. -/
def nameText (name : Option String) : String := name.getD computedKey

theorem nameText_eq_iff {name : Option String} {s : String} (h : s ≠ computedKey) :
    nameText name = s ↔ name = some s := by
  cases name with
  | none => simp [nameText, h.symm]
  | some key => simp [nameText]

theorem map_nameText_eq_iff {names : List (Option String)} {path : List String}
    (h : computedKey ∉ path) : names.map nameText = path ↔ names = path.map some := by
  induction names generalizing path with
  | nil => cases path <;> simp
  | cons name names ih =>
    cases path with
    | nil => simp
    | cons s path =>
      rw [List.mem_cons, not_or] at h
      simp [nameText_eq_iff (Ne.symm h.1), ih h.2]

theorem ofPair?_eq_some_iff {path : List String} {key : String} {value : Expr} {d : Declaration} :
    ofPair? path key value = some d ↔
      path = d.origin.path ∧ key = d.family.name ∧ value = d.value := by
  obtain ⟨origin, family, value'⟩ := d
  simp [ofPair?, Option.bind_eq_some_iff, Origin.ofPath?_eq_some_iff,
    Family.ofName?_eq_some_iff]

/-- The declaration that a property makes by its names. -/
def ofNames? (names : List (Option String)) (value : Expr) : Option Declaration :=
  ofPair? (names.dropLast.map nameText) (nameText (names.getLast?.getD none)) value

theorem ofNames?_append (outer : List (Option String)) (name : Option String) (value : Expr) :
    ofNames? (outer ++ [name]) value = ofPair? (outer.map nameText) (nameText name) value := by
  simp [ofNames?]

/-- No computed key is in the way of a declaration, whatever stands for it. -/
theorem ofNames?_eq_some_iff {names : List (Option String)} {value : Expr} {d : Declaration} :
    ofNames? names value = some d ↔
      names = d.origin.path.map some ++ [some d.family.name] ∧ value = d.value := by
  have hpath : computedKey ∉ d.origin.path := by cases d.origin <;> decide
  have hname : d.family.name ≠ computedKey := by cases d.family <;> decide
  rcases List.eq_nil_or_concat names with rfl | ⟨outer, name, rfl⟩
  · have hne : [] ≠ d.origin.path := by cases d.origin <;> decide
    simp [ofNames?, ofPair?_eq_some_iff, hne]
  · rw [List.concat_eq_append, ofNames?_append, ofPair?_eq_some_iff, map_nameText_eq_iff hpath,
      nameText_eq_iff hname]
    simp [and_assoc]

/-- The declaration that a property makes inside of properties with some names. -/
def ofProperty? (outer : List (Option String)) (p : Script.Property) : Option Declaration :=
  ofNames? (outer ++ p.names) p.value

theorem filterMap_within (outer more : List (Option String)) (i : Nat)
    (ps : List Script.Property) :
    (ps.map (.within i more)).filterMap (ofProperty? outer) =
      ps.filterMap (ofProperty? (outer ++ more)) := by
  rw [List.filterMap_map]
  apply List.filterMap_congr
  intro p _
  rw [Function.comp_apply, ofProperty?, ofProperty?, Script.Property.within, List.append_assoc]

section
variable {limit : Nat}

mutual

/-- The walk finds the declarations among the properties, in their order. -/
theorem collect_eq {outer : List (Option String)} {depth : Option Nat} {e : Expr}
    {ds : List Declaration} (h : collect limit (outer.map nameText) depth e = .ok ds) :
    ds = e.properties.filterMap (ofProperty? outer) := by
  match e with
  | .string .. =>
    cases h
    rfl
  | .template .. =>
    cases h
    rfl
  | .number .. =>
    cases h
    rfl
  | .array _ items => exact collectAll_eq 0 h
  | .dynamic _ found => exact collectAll_eq 0 h
  | .object _ members => exact collectMembers_eq 0 (collect_object_eq_ok_iff.1 h).2

theorem collectMembers_eq (i : Nat) {outer : List (Option String)} {depth : Option Nat}
    {ms : List Member} {ds : List Declaration}
    (h : collectMembers limit (outer.map nameText) depth ms = .ok ds) :
    ds = (Script.memberProperties i ms).filterMap (ofProperty? outer) := by
  match ms with
  | [] =>
    cases h
    rfl
  | .spread value :: rest =>
    obtain ⟨inside, others, hinside, hothers, rfl⟩ := collectMembers_spread_eq_ok_iff.1 h
    rw [Script.memberProperties, List.filterMap_append, filterMap_within, List.append_nil,
      ← collect_eq hinside, ← collectMembers_eq (i + 1) hothers]
  | .pair name value :: rest =>
    obtain ⟨inside, others, hinside, hothers, rfl⟩ := collectMembers_pair_eq_ok_iff.1 h
    have hpath : outer.map nameText ++ [name.getD computedKey] =
        (outer ++ [name]).map nameText := by simp [nameText]
    rw [hpath] at hinside
    have hown : ofPair? (outer.map nameText) (name.getD computedKey) value =
        ofProperty? outer ⟨[i], [name], value⟩ := (ofNames?_append outer name value).symm
    rw [Script.memberProperties, List.filterMap_append, List.filterMap_cons, filterMap_within,
      ← collect_eq hinside, ← collectMembers_eq (i + 1) hothers, hown]
    cases ofProperty? outer ⟨[i], [name], value⟩ <;> rfl

theorem collectAll_eq (i : Nat) {outer : List (Option String)} {depth : Option Nat}
    {es : List Expr} {ds : List Declaration}
    (h : collectAll limit (outer.map nameText) depth es = .ok ds) :
    ds = (Script.itemProperties i es).filterMap (ofProperty? outer) := by
  match es with
  | [] =>
    cases h
    rfl
  | e :: rest =>
    obtain ⟨inside, others, hinside, hothers, rfl⟩ := collectAll_cons_eq_ok_iff.1 h
    rw [Script.itemProperties, List.filterMap_append, filterMap_within, List.append_nil,
      ← collect_eq hinside, ← collectAll_eq (i + 1) hothers]

end

end

end Declaration

namespace Declared

/-- An object literal declares tokens of a family: it is the value of a property with the name of
the family, and the names around that property are those of the place. -/
def IsDeclared (roots : List Expr) (origin : Origin) (family : Family) (place : List Nat)
    (tokens : List (String × TokenTree)) : Prop :=
  ∃ span members,
    Script.AnyHasProperty roots
      ⟨place, origin.path.map some ++ [some family.name], .object span members⟩ ∧
    TokenTree.ofExpr? (.object span members) = some (.group tokens)

/-- What is declared by a property, with its place. -/
def placed? (origin : Origin) (family : Family) (p : Script.Property) :
    Option (List Nat × List (String × TokenTree)) :=
  if p.names = origin.path.map some ++ [some family.name] then
    match TokenTree.ofExpr? p.value with
    | some (.group tokens) => some (p.place, tokens)
    | _ => none
  else none

theorem placed?_eq_some_iff {origin : Origin} {family : Family} {p : Script.Property}
    {place : List Nat} {tokens : List (String × TokenTree)} :
    placed? origin family p = some (place, tokens) ↔
      p.place = place ∧ p.names = origin.path.map some ++ [some family.name] ∧
        TokenTree.ofExpr? p.value = some (.group tokens) := by
  unfold placed?
  split
  · rename_i hnames
    split
    · rename_i tokens' hvalue
      simp [hnames, hvalue]
    · rename_i hvalue
      simp only [reduceCtorEq, false_iff, not_and]
      exact fun _ _ => hvalue tokens
  · rename_i hnames
    simp [hnames]

/-- Only an object literal is known as a group. -/
theorem exists_object_of_group {value : Expr} {tokens : List (String × TokenTree)}
    (h : TokenTree.ofExpr? value = some (.group tokens)) :
    ∃ span members, value = .object span members := by
  cases value with
  | object span members => exact ⟨span, members, rfl⟩
  | _ => simp [TokenTree.ofExpr?] at h

private theorem tokensFor?_ofProperty? (origin : Origin) (family : Family) (p : Script.Property) :
    (Declaration.ofProperty? [] p).bind (Declaration.tokensFor? origin family) =
      (placed? origin family p).map fun entry => TokenTree.flatten entry.2 := by
  by_cases hnames : p.names = origin.path.map some ++ [some family.name]
  · have hdecl : Declaration.ofProperty? [] p = some ⟨origin, family, p.value⟩ :=
      Declaration.ofNames?_eq_some_iff.2 ⟨hnames, rfl⟩
    rw [hdecl, Option.bind_some, Declaration.tokensFor?, if_pos ⟨rfl, rfl⟩, Declaration.tokens?,
      placed?, if_pos hnames]
    cases TokenTree.ofExpr? p.value with
    | none => rfl
    | some tree => cases tree <;> rfl
  · rw [placed?, if_neg hnames, Option.map_none]
    cases hd : Declaration.ofProperty? [] p with
    | none => rfl
    | some decl =>
      have hplace : ¬(decl.origin = origin ∧ decl.family = family) := by
        rintro ⟨rfl, rfl⟩
        exact hnames (Declaration.ofNames?_eq_some_iff.1 hd).1
      rw [Option.bind_some, Declaration.tokensFor?, if_neg hplace]

/-- A script declares nothing but the object literals at the allowed places, laid over one another
in the order of the text. -/
theorem extract_eq_declared {source : String} {options : Options} {d : Declared}
    (h : extract source options = .ok d) :
    ∃ roots, Script.document source = .ok roots ∧ ∀ origin family,
      ∃ found : List (List Nat × List (String × TokenTree)),
        found.Pairwise (fun p q => p.1 < q.1) ∧
        (∀ place tokens, (place, tokens) ∈ found ↔ IsDeclared roots origin family place tokens) ∧
        (d.get origin).get family =
          found.foldl (fun m entry => m.overlay (TokenTree.flatten entry.2)) OrderedMap.empty := by
  obtain ⟨roots, hroots, hd⟩ := extract_eq_ok_iff.1 h
  obtain ⟨ds, hds, rfl⟩ := ofRoots_eq_ok_iff.1 hd
  refine ⟨roots, hroots, fun origin family => ?_⟩
  refine ⟨(Script.itemProperties 0 roots).filterMap (placed? origin family), ?_, ?_, ?_⟩
  · refine (Script.inOrder_itemProperties 0 roots).filterMap _ fun p q hlt p' hp q' hq => ?_
    rw [← (placed?_eq_some_iff.1 hp).1, ← (placed?_eq_some_iff.1 hq).1]
    exact hlt
  · intro place tokens
    rw [List.mem_filterMap]
    constructor
    · rintro ⟨⟨place', names, value⟩, hp, hentry⟩
      obtain ⟨rfl, rfl, hvalue⟩ := placed?_eq_some_iff.1 hentry
      obtain ⟨span, members, rfl⟩ := exists_object_of_group hvalue
      exact ⟨span, members, Script.mem_itemProperties_zero_iff.1 hp, hvalue⟩
    · rintro ⟨span, members, hp, hvalue⟩
      exact ⟨_, Script.mem_itemProperties_zero_iff.2 hp, placed?_eq_some_iff.2 ⟨rfl, rfl, hvalue⟩⟩
  · have heq : ds = (Script.itemProperties 0 roots).filterMap (Declaration.ofProperty? []) :=
      Declaration.collectAll_eq 0 hds
    rw [get_foldl_apply, get_empty, heq, List.filterMap_filterMap]
    simp only [tokensFor?_ofProperty?]
    rw [← List.map_filterMap, List.foldl_map]

/-- Colors below a computed key, in a spread, below another `theme`, and again in a call. -/
def scattered : String :=
  "f(\x7btheme:\x7bcolors:\x7ba:'',theme:\x7bcolors:''\x7d\x7d,[k]:\x7bcolors:\x7bc:''\x7d\x7d,"
    ++ "...\x7bextend:\x7bcolors:\x7bd:''\x7d\x7d\x7d\x7d\x7d,[\x7btheme:\x7bcolors:\x7ba:'1'\x7d\x7d\x7d])"

theorem extract_eq_declared_scattered : ∃ d, extract scattered Options.standard = .ok d ∧
    d.override.colors.entries = [("a", "1"), ("theme-colors", "")] ∧
    d.extend.colors.entries = [("d", "")] ∧
    ∃ roots, Script.document scattered = .ok roots ∧ ∀ origin family,
      ∃ found : List (List Nat × List (String × TokenTree)),
        found.Pairwise (fun p q => p.1 < q.1) ∧
        (∀ place tokens, (place, tokens) ∈ found ↔ IsDeclared roots origin family place tokens) ∧
        (d.get origin).get family =
          found.foldl (fun m entry => m.overlay (TokenTree.flatten entry.2)) OrderedMap.empty := by
  have hd : extract scattered Options.standard = .ok
      ⟨⟨.ofList [("a", "1"), ("theme-colors", "")], .empty⟩, ⟨.ofList [("d", "")], .empty⟩⟩ := by
    decide +kernel
  exact ⟨_, hd, rfl, rfl, extract_eq_declared hd⟩

end Declared
end DesignTokens
