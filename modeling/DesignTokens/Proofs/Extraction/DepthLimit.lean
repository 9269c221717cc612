import DesignTokens.Diagnostic
import DesignTokens.Proofs.Extraction.Ancestry
import DesignTokens.Proofs.Script.Spans

/-! # The limit on the nesting of themes

Only the object literals in the value of a root `theme` are counted. A script is refused at the first
of them that lies inside of too many others, and the limit decides nothing else. -/
namespace DesignTokens
open Script (Expr Member)
open Text (Span)

namespace Script

/-- An object literal inside of an expression: the names of the properties around it, the number of
object literals around it, and its span. -/
structure Enclosed where
  names : List (Option String)
  around : Nat
  span : Span

/-- An object literal in a member of one more object. -/
def Enclosed.within (outer : List (Option String)) (o : Enclosed) : Enclosed :=
  { o with names := outer ++ o.names, around := o.around + 1 }

/-- The name that a member adds to those around its value. -/
def Member.names : Member → List (Option String)
  | pair name _ => [name]
  | spread _ => []

/-- An expression is an object literal or holds one somewhere inside. Only objects lie around it:
arrays and expressions of unknown value are not counted. -/
inductive HasObject : Expr → Enclosed → Prop
  | own {span members} : HasObject (.object span members) ⟨[], 0, span⟩
  | inMember {span members m o} (h : m ∈ members) (ho : HasObject (Member.value m) o) :
      HasObject (.object span members) (o.within m.names)
  | inArray {span items item o} (h : item ∈ items) (ho : HasObject item o) :
      HasObject (.array span items) o
  | inDynamic {span found item o} (h : item ∈ found) (ho : HasObject item o) :
      HasObject (.dynamic span found) o

mutual

/-- The object literals of an expression in the order of the text. -/
def Expr.objects : Expr → List Enclosed
  | .object span members => ⟨[], 0, span⟩ :: memberObjects members
  | .array _ items => itemObjects items
  | .dynamic _ found => itemObjects found
  | .string .. => []
  | .template .. => []
  | .number .. => []

def memberObjects : List Member → List Enclosed
  | [] => []
  | .pair name value :: rest => value.objects.map (.within [name]) ++ memberObjects rest
  | .spread value :: rest => value.objects.map (.within []) ++ memberObjects rest

def itemObjects : List Expr → List Enclosed
  | [] => []
  | item :: rest => item.objects ++ itemObjects rest

end

theorem memberObjects_eq (ms : List Member) :
    memberObjects ms = ms.flatMap fun m => m.value.objects.map (.within m.names) := by
  induction ms with
  | nil => rfl
  | cons m ms ih => cases m <;> rw [memberObjects, ih] <;> rfl

theorem itemObjects_eq (es : List Expr) : itemObjects es = es.flatMap Expr.objects := by
  induction es with
  | nil => rfl
  | cons e es ih => rw [itemObjects, ih, List.flatMap_cons]

theorem sizeOf_value_lt_of_mem {m : Member} {ms : List Member} (h : m ∈ ms) :
    sizeOf m.value < sizeOf ms := by
  obtain ⟨i, hi⟩ := List.getElem?_of_mem h
  exact sizeOf_value_lt hi

private theorem Expr.sizeOf_lt_of_mem_children {e c : Expr} (h : c ∈ e.children) :
    sizeOf c < sizeOf e := by
  cases e with
  | object span members =>
    obtain ⟨m, hm, rfl⟩ := List.mem_map.1 h
    have := sizeOf_value_lt_of_mem hm
    rw [object.sizeOf_spec]
    omega
  | array span items =>
    have hlt : sizeOf c < sizeOf items := List.sizeOf_lt_of_mem h
    rw [array.sizeOf_spec]
    omega
  | dynamic span found =>
    have hlt : sizeOf c < sizeOf found := List.sizeOf_lt_of_mem h
    rw [dynamic.sizeOf_spec]
    omega
  | _ => cases h

theorem hasObject_of_mem {e : Expr} {o : Enclosed} (h : o ∈ e.objects) : HasObject e o := by
  match e with
  | .string .. => cases h
  | .template .. => cases h
  | .number .. => cases h
  | .array span items =>
    rw [Expr.objects, itemObjects_eq, List.mem_flatMap] at h
    obtain ⟨item, hitem, ho⟩ := h
    have := List.sizeOf_lt_of_mem hitem
    exact .inArray hitem (hasObject_of_mem ho)
  | .dynamic span found =>
    rw [Expr.objects, itemObjects_eq, List.mem_flatMap] at h
    obtain ⟨item, hitem, ho⟩ := h
    have := List.sizeOf_lt_of_mem hitem
    exact .inDynamic hitem (hasObject_of_mem ho)
  | .object span members =>
    rw [Expr.objects, memberObjects_eq, List.mem_cons, List.mem_flatMap] at h
    rcases h with rfl | ⟨m, hm, ho⟩
    · exact .own
    · obtain ⟨q, hq, rfl⟩ := List.mem_map.1 ho
      have := sizeOf_value_lt_of_mem hm
      exact .inMember hm (hasObject_of_mem hq)
termination_by e

/-- The object literals are the ones that an expression has. -/
theorem mem_objects_iff {e : Expr} {o : Enclosed} : o ∈ e.objects ↔ HasObject e o := by
  refine ⟨hasObject_of_mem, fun h => ?_⟩
  induction h with
  | own => exact List.mem_cons_self
  | inMember h _ ih =>
    rw [Expr.objects, memberObjects_eq]
    exact List.mem_cons_of_mem _ (List.mem_flatMap.2 ⟨_, h, List.mem_map_of_mem ih⟩)
  | inArray h _ ih =>
    rw [Expr.objects, itemObjects_eq]
    exact List.mem_flatMap.2 ⟨_, h, ih⟩
  | inDynamic h _ ih =>
    rw [Expr.objects, itemObjects_eq]
    exact List.mem_flatMap.2 ⟨_, h, ih⟩

theorem HasObject.exists_object {e : Expr} {o : Enclosed} (h : HasObject e o) :
    ∃ members, Relation.ReflTransGen Expr.Holds e (.object o.span members) := by
  induction h with
  | own => exact ⟨_, .refl⟩
  | inMember h _ ih => exact ih.imp fun _ => .head (.member h)
  | inArray h _ ih => exact ih.imp fun _ => .head (.item h)
  | inDynamic h _ ih => exact ih.imp fun _ => .head (.found h)

/-- The spans of the object literals. -/
def Expr.objectSpans (e : Expr) : List Span := e.objects.map Enclosed.span

theorem itemObjects_spans (es : List Expr) :
    (itemObjects es).map Enclosed.span = es.flatMap Expr.objectSpans := by
  rw [itemObjects_eq, List.map_flatMap]
  rfl

private theorem memberObjects_spans (ms : List Member) :
    (memberObjects ms).map Enclosed.span = (ms.map Member.value).flatMap Expr.objectSpans := by
  rw [memberObjects_eq, List.map_flatMap, List.flatMap_map]
  simp only [List.map_map]
  rfl

/-- The object literals begin one behind the other inside of a span. -/
structure InRow (spans : List Span) (within : Span) : Prop where
  bounds : ∀ s ∈ spans, within.start ≤ s.start ∧ s.start < within.stop
  ordered : spans.Pairwise fun s t => s.start < t.start

section
variable {ts : List Token}

/-- What stands in rows, one behind the other. -/
theorem flatMap_objectSpans_ordered {es : List Expr} (h : ∀ e ∈ es, InRow e.objectSpans e.span)
    (hes : es.Pairwise fun e f => e.span.stop ≤ f.span.start) :
    (es.flatMap Expr.objectSpans).Pairwise fun s t => s.start < t.start := by
  refine List.pairwise_flatMap.2 ⟨fun e he => (h e he).ordered, ?_⟩
  refine hes.imp_of_mem fun {e f} he hf hle s hs t ht => ?_
  have hbefore := ((h e he).bounds s hs).2
  have hbehind := ((h f hf).bounds t ht).1
  omega

theorem inRow_objectSpans {e : Expr} (h : e.IsPart ts) (ha : AreApart ts) :
    InRow e.objectSpans e.span := by
  have hplaced := h.placedIn ha
  have hrows : ∀ c ∈ e.children, InRow c.objectSpans c.span := fun c hc =>
    have := Expr.sizeOf_lt_of_mem_children hc
    inRow_objectSpans (h.step (Expr.holds_iff.2 hc)) ha
  have hinside : InRow (e.children.flatMap Expr.objectSpans) e.span := by
    refine ⟨fun s hs => ?_, flatMap_objectSpans_ordered hrows hplaced.ordered⟩
    obtain ⟨c, hc, hs⟩ := List.mem_flatMap.1 hs
    have hc' := hplaced.inside c hc
    have hs' := (hrows c hc).bounds s hs
    omega
  match e with
  | .string .. => exact ⟨nofun, .nil⟩
  | .template .. => exact ⟨nofun, .nil⟩
  | .number .. => exact ⟨nofun, .nil⟩
  | .array _ items =>
    rw [Expr.objectSpans, Expr.objects, itemObjects_spans]
    exact hinside
  | .dynamic _ found =>
    rw [Expr.objectSpans, Expr.objects, itemObjects_spans]
    exact hinside
  | .object span members =>
    rw [Expr.objectSpans, Expr.objects, List.map_cons, memberObjects_spans]
    constructor
    · rw [List.forall_mem_cons]
      exact ⟨⟨Nat.le_refl _, hplaced.progress⟩, hinside.bounds⟩
    · refine List.pairwise_cons.2 ⟨fun s hs => ?_, hinside.ordered⟩
      obtain ⟨c, hc, hs⟩ := List.mem_flatMap.1 hs
      have hc' := hplaced.behindOpening rfl c hc
      have hs' := ((hrows c hc).bounds s hs).1
      exact Nat.lt_of_lt_of_le hc' hs'
termination_by e

end

private theorem HasProperty.names_ne_nil {e : Expr} {p : Property} (h : HasProperty e p) :
    p.names ≠ [] := by
  induction h with
  | own h => exact List.cons_ne_nil _ _
  | inValue h _ _ => exact List.cons_ne_nil _ _
  | inSpread h _ ih => exact ih
  | inArray h _ ih => exact ih
  | inDynamic h _ ih => exact ih

theorem HasProperty.exists_path {e : Expr} {p : Property} (h : HasProperty e p) :
    Relation.ReflTransGen Expr.Holds e p.value := by
  induction h with
  | own h => exact .single (.member (List.mem_of_getElem? h))
  | inValue h _ ih => exact .head (.member (List.mem_of_getElem? h)) ih
  | inSpread h _ ih => exact .head (.member (List.mem_of_getElem? h)) ih
  | inArray h _ ih => exact .head (.item (List.mem_of_getElem? h)) ih
  | inDynamic h _ ih => exact .head (.found (List.mem_of_getElem? h)) ih

/-- An object literal of the value of a root `theme`, named from the root of the script. -/
def Enclosed.inTheme (o : Enclosed) : Enclosed := { o with names := some "theme" :: o.names }

/-- The object literals in the value of a property that is a root `theme`, given the names around. -/
def themeObjects (outer : List (Option String)) (p : Property) : List Enclosed :=
  if outer ++ p.names = [some "theme"] then p.value.objects.map .inTheme else []

/-- An object literal lies in the value of a property `theme` that no other property is around. The
objects around it are counted from that value. -/
def InTheme (roots : List Expr) (o : Enclosed) : Prop :=
  ∃ place value q, AnyHasProperty roots ⟨place, [some "theme"], value⟩ ∧ HasObject value q ∧
    o = q.inTheme

/-- The object literals of all root themes. -/
def themeLiterals (roots : List Expr) : List Enclosed :=
  (itemProperties 0 roots).flatMap (themeObjects [])

theorem mem_themeLiterals_iff {roots : List Expr} {o : Enclosed} :
    o ∈ themeLiterals roots ↔ InTheme roots o := by
  rw [themeLiterals, List.mem_flatMap]
  constructor
  · rintro ⟨⟨place, names, value⟩, hp, ho⟩
    unfold themeObjects at ho
    split at ho
    · rename_i hnames
      obtain rfl : names = [some "theme"] := hnames
      obtain ⟨q, hq, rfl⟩ := List.mem_map.1 ho
      exact ⟨place, value, q, mem_itemProperties_zero_iff.1 hp, mem_objects_iff.1 hq, rfl⟩
    · cases ho
  · rintro ⟨place, value, q, hp, hq, rfl⟩
    exact ⟨_, mem_itemProperties_zero_iff.2 hp, List.mem_map_of_mem (mem_objects_iff.2 hq)⟩

section
variable {outer : List (Option String)}

theorem flatMap_within (i : Nat) (more : List (Option String)) (ps : List Property) :
    (ps.map (.within i more)).flatMap (themeObjects outer) =
      ps.flatMap (themeObjects (outer ++ more)) := by
  rw [List.flatMap_map]
  congr 1
  funext p
  rw [themeObjects, themeObjects, Property.within, List.append_assoc]

/-- Inside of a root `theme` there is no other one. -/
theorem flatMap_themeObjects_of_theme (h : outer = [some "theme"]) (e : Expr) :
    e.properties.flatMap (themeObjects outer) = [] := by
  rw [List.flatMap_eq_nil_iff]
  intro p hp
  have hne := (mem_properties_iff.1 hp).names_ne_nil
  rw [themeObjects, h, if_neg (by simpa using hne)]

/-- A property is a root `theme`, or the root themes are inside of its value. -/
theorem flatMap_pair (i : Nat) (name : Option String) (value : Expr) (rest : List Member) :
    (memberProperties i (.pair name value :: rest)).flatMap (themeObjects outer) =
      (if outer ++ [name] = [some "theme"] then value.objects.map .inTheme
        else value.properties.flatMap (themeObjects (outer ++ [name]))) ++
      (memberProperties (i + 1) rest).flatMap (themeObjects outer) := by
  rw [memberProperties, List.flatMap_append, List.flatMap_cons, flatMap_within]
  congr 1
  rw [themeObjects]
  split
  · rename_i hnames
    rw [flatMap_themeObjects_of_theme hnames, List.append_nil]
  · rw [List.nil_append]

theorem flatMap_spread (i : Nat) (value : Expr) (rest : List Member) :
    (memberProperties i (.spread value :: rest)).flatMap (themeObjects outer) =
      value.properties.flatMap (themeObjects outer) ++
        (memberProperties (i + 1) rest).flatMap (themeObjects outer) := by
  rw [memberProperties, List.flatMap_append, flatMap_within, List.append_nil]

theorem flatMap_item (i : Nat) (e : Expr) (rest : List Expr) :
    (itemProperties i (e :: rest)).flatMap (themeObjects outer) =
      e.properties.flatMap (themeObjects outer) ++
        (itemProperties (i + 1) rest).flatMap (themeObjects outer) := by
  rw [itemProperties, List.flatMap_append, flatMap_within, List.append_nil]

end

mutual

/-- The object literals of root themes are some of all, in the same order. -/
theorem spans_sublist (outer : List (Option String)) (e : Expr) :
    ((e.properties.flatMap (themeObjects outer)).map Enclosed.span).Sublist e.objectSpans := by
  match e with
  | .string .. => exact .slnil
  | .template .. => exact .slnil
  | .number .. => exact .slnil
  | .array _ items => exact itemSpans_sublist 0 outer items
  | .dynamic _ found => exact itemSpans_sublist 0 outer found
  | .object _ members => exact (memberSpans_sublist 0 outer members).cons _

theorem memberSpans_sublist (i : Nat) (outer : List (Option String)) (ms : List Member) :
    (((memberProperties i ms).flatMap (themeObjects outer)).map Enclosed.span).Sublist
      ((memberObjects ms).map Enclosed.span) := by
  match ms with
  | [] => exact .slnil
  | .pair name value :: rest =>
    rw [flatMap_pair, memberObjects, List.map_append, List.map_append]
    refine .append ?_ (memberSpans_sublist (i + 1) outer rest)
    rw [List.map_map]
    split
    · rw [List.map_map]
      exact .refl _
    · exact spans_sublist (outer ++ [name]) value
  | .spread value :: rest =>
    rw [flatMap_spread, memberObjects, List.map_append, List.map_append, List.map_map]
    exact (spans_sublist outer value).append (memberSpans_sublist (i + 1) outer rest)

theorem itemSpans_sublist (i : Nat) (outer : List (Option String)) (es : List Expr) :
    (((itemProperties i es).flatMap (themeObjects outer)).map Enclosed.span).Sublist
      ((itemObjects es).map Enclosed.span) := by
  match es with
  | [] => exact .slnil
  | e :: rest =>
    rw [flatMap_item, itemObjects, List.map_append, List.map_append]
    exact (spans_sublist outer e).append (itemSpans_sublist (i + 1) outer rest)

end

private theorem themeLiterals_ordered {source : String} {roots : List Expr}
    (h : document source = .ok roots) :
    (themeLiterals roots).Pairwise fun o p => o.span.start < p.span.start := by
  obtain ⟨ts, hts, hcarries⟩ := carries_of_document h
  have ha := areApart_of_tokens hts
  have hrows : ∀ root ∈ roots, InRow root.objectSpans root.span := fun root hroot =>
    inRow_objectSpans (hcarries.exists_run hroot) ha
  have hall := flatMap_objectSpans_ordered hrows (hcarries.ordered ha)
  rw [← itemObjects_spans] at hall
  have hthemes := hall.sublist (itemSpans_sublist 0 [] roots)
  rwa [List.pairwise_map] at hthemes

/-- In the order of the text the first object literal of a kind is the one that begins first. -/
theorem find?_eq_some_iff_first {os : List Enclosed} {p : Enclosed → Bool} {o : Enclosed}
    (h : os.Pairwise fun o p => o.span.start < p.span.start) :
    os.find? p = some o ↔ o ∈ os ∧ p o ∧ ∀ o' ∈ os, p o' → o.span.start ≤ o'.span.start := by
  induction os with
  | nil => simp
  | cons x xs ih =>
    obtain ⟨hx, hxs⟩ := List.pairwise_cons.1 h
    rw [List.find?_cons]
    cases hp : p x with
    | true =>
      constructor
      · intro ho
        obtain rfl : x = o := Option.some.inj ho
        refine ⟨List.mem_cons_self, hp, fun o' ho' _ => ?_⟩
        rcases List.mem_cons.1 ho' with rfl | ho'
        · exact Nat.le_refl _
        · exact Nat.le_of_lt (hx o' ho')
      · rintro ⟨ho, -, hfirst⟩
        rcases List.mem_cons.1 ho with rfl | ho
        · rfl
        · exact absurd (hfirst x List.mem_cons_self hp) (Nat.not_le_of_lt (hx o ho))
    | false =>
      refine (ih hxs).trans ⟨fun ⟨ho, hpo, hfirst⟩ => ⟨List.mem_cons_of_mem _ ho, hpo, ?_⟩,
        fun ⟨ho, hpo, hfirst⟩ => ⟨?_, hpo, fun o' ho' => hfirst o' (List.mem_cons_of_mem _ ho')⟩⟩
      · rw [List.forall_mem_cons]
        exact ⟨fun hx => by simp [hp] at hx, hfirst⟩
      · rcases List.mem_cons.1 ho with rfl | ho
        · simp [hp] at hpo
        · exact ho

end Script

namespace Declaration
open Script (Enclosed)

/-- What is refused, if anything is. -/
def fault? {α : Type} : Except DepthFault α → Option DepthFault
  | .error fault => some fault
  | .ok _ => none

/-- Of two results that are put together the first fault counts. -/
theorem fault?_joined {first second : Except DepthFault (List Declaration)}
    {join : List Declaration → List Declaration → List Declaration} :
    fault? (match first with
      | .error fault => .error fault
      | .ok inside =>
        match second with
        | .error fault => .error fault
        | .ok others => .ok (join inside others)) = (fault? first).or (fault? second) := by
  cases first with
  | error fault => rfl
  | ok inside => cases second <;> rfl

/-- The fault at the first object literal that lies inside of too many others, `around` of which are
outside of the expression. -/
def firstDeep (limit around : Nat) (outer : List (Option String)) (os : List Enclosed) :
    Option DepthFault :=
  (os.find? fun o => limit ≤ around + o.around).map fun o =>
    ⟨(outer ++ o.names).map nameText, limit, o.span⟩

section
variable {limit around : Nat} {outer : List (Option String)}

theorem firstDeep_append (os os' : List Enclosed) :
    firstDeep limit around outer (os ++ os') =
      (firstDeep limit around outer os).or (firstDeep limit around outer os') := by
  rw [firstDeep, List.find?_append, Option.map_or]
  rfl

theorem firstDeep_within (more : List (Option String)) (os : List Enclosed) :
    firstDeep limit around outer (os.map (.within more)) =
      firstDeep limit (around + 1) (outer ++ more) os := by
  have hdeep : (fun o : Enclosed => decide (limit ≤ around + o.around)) ∘ Enclosed.within more =
      fun o => decide (limit ≤ around + 1 + o.around) := by
    funext o
    rw [Function.comp_apply, Enclosed.within, Nat.add_assoc, Nat.add_comm 1]
  rw [firstDeep, List.find?_map, hdeep, Option.map_map]
  simp only [firstDeep, Function.comp_def, Enclosed.within, List.append_assoc]

private theorem firstDeep_inTheme (os : List Enclosed) :
    firstDeep limit around [] (os.map .inTheme) = firstDeep limit around [some "theme"] os := by
  rw [firstDeep, List.find?_map, Option.map_map]
  rfl

theorem firstDeep_eq_none_iff {os : List Enclosed} :
    firstDeep limit around outer os = none ↔ ∀ o ∈ os, ¬limit ≤ around + o.around := by
  simp [firstDeep]

theorem map_nameText_concat (outer : List (Option String)) (name : Option String) :
    outer.map nameText ++ [name.getD computedKey] = (outer ++ [name]).map nameText := by
  rw [List.map_append]
  rfl

mutual

/-- Inside of a theme every object literal is counted. -/
theorem fault?_collect_inside (limit around : Nat) (outer : List (Option String)) (e : Expr) :
    fault? (collect limit (outer.map nameText) (some around) e) =
      firstDeep limit around outer e.objects := by
  match e with
  | .string .. => rfl
  | .template .. => rfl
  | .number .. => rfl
  | .array _ items => exact fault?_collectAll_inside limit around outer items
  | .dynamic _ found => exact fault?_collectAll_inside limit around outer found
  | .object span members =>
    rw [collect, Script.Expr.objects, firstDeep, List.find?_cons, Option.any_some, Nat.add_zero]
    by_cases hdeep : limit ≤ around
    · simp [hdeep, fault?]
    · simp only [hdeep, decide_false, Bool.false_eq_true, if_false]
      exact fault?_collectMembers_inside limit around outer members

theorem fault?_collectMembers_inside (limit around : Nat) (outer : List (Option String))
    (ms : List Member) :
    fault? (collectMembers limit (outer.map nameText) (some (around + 1)) ms) =
      firstDeep limit around outer (Script.memberObjects ms) := by
  match ms with
  | [] => rfl
  | .pair name value :: rest =>
    rw [collectMembers]
    refine fault?_joined.trans ?_
    rw [map_nameText_concat, depthBelow,
      fault?_collect_inside limit (around + 1) (outer ++ [name]) value,
      fault?_collectMembers_inside limit around outer rest, Script.memberObjects, firstDeep_append,
      firstDeep_within]
  | .spread value :: rest =>
    rw [collectMembers]
    refine fault?_joined.trans ?_
    rw [fault?_collect_inside limit (around + 1) outer value,
      fault?_collectMembers_inside limit around outer rest, Script.memberObjects, firstDeep_append,
      firstDeep_within, List.append_nil]

theorem fault?_collectAll_inside (limit around : Nat) (outer : List (Option String))
    (es : List Expr) :
    fault? (collectAll limit (outer.map nameText) (some around) es) =
      firstDeep limit around outer (Script.itemObjects es) := by
  match es with
  | [] => rfl
  | e :: rest =>
    rw [collectAll]
    refine fault?_joined.trans ?_
    rw [fault?_collect_inside limit around outer e,
      fault?_collectAll_inside limit around outer rest, Script.itemObjects, firstDeep_append]

end

private theorem depthBelow_none (outer : List (Option String)) :
    depthBelow none (outer.map nameText) = if outer = [some "theme"] then some 0 else none := by
  have htheme : outer.map nameText = ["theme"] ↔ outer = [some "theme"] :=
    map_nameText_eq_iff (by decide)
  simp only [depthBelow, htheme]

mutual

/-- Outside of themes nothing but their values is counted. -/
theorem fault?_collect_outside (limit : Nat) (outer : List (Option String)) (e : Expr) :
    fault? (collect limit (outer.map nameText) none e) =
      firstDeep limit 0 [] (e.properties.flatMap (Script.themeObjects outer)) := by
  match e with
  | .string .. => rfl
  | .template .. => rfl
  | .number .. => rfl
  | .array _ items => exact fault?_collectAll_outside 0 limit outer items
  | .dynamic _ found => exact fault?_collectAll_outside 0 limit outer found
  | .object span members => exact fault?_collectMembers_outside 0 limit outer members

theorem fault?_collectMembers_outside (i limit : Nat) (outer : List (Option String))
    (ms : List Member) :
    fault? (collectMembers limit (outer.map nameText) none ms) =
      firstDeep limit 0 [] ((Script.memberProperties i ms).flatMap (Script.themeObjects outer)) := by
  match ms with
  | [] => rfl
  | .pair name value :: rest =>
    rw [collectMembers]
    refine fault?_joined.trans ?_
    rw [map_nameText_concat, depthBelow_none, Script.flatMap_pair, firstDeep_append,
      fault?_collectMembers_outside (i + 1) limit outer rest]
    split
    · rename_i hnames
      rw [fault?_collect_inside, firstDeep_inTheme, hnames]
    · rw [fault?_collect_outside limit (outer ++ [name]) value]
  | .spread value :: rest =>
    rw [collectMembers]
    refine fault?_joined.trans ?_
    rw [Script.flatMap_spread, firstDeep_append, fault?_collect_outside limit outer value,
      fault?_collectMembers_outside (i + 1) limit outer rest]

theorem fault?_collectAll_outside (i limit : Nat) (outer : List (Option String)) (es : List Expr) :
    fault? (collectAll limit (outer.map nameText) none es) =
      firstDeep limit 0 [] ((Script.itemProperties i es).flatMap (Script.themeObjects outer)) := by
  match es with
  | [] => rfl
  | e :: rest =>
    rw [collectAll]
    refine fault?_joined.trans ?_
    rw [Script.flatMap_item, firstDeep_append, fault?_collect_outside limit outer e,
      fault?_collectAll_outside (i + 1) limit outer rest]

end

end

theorem fault?_roots (limit : Nat) (roots : List Expr) :
    fault? (collectAll limit [] none roots) = firstDeep limit 0 [] (Script.themeLiterals roots) :=
  fault?_collectAll_outside 0 limit [] roots

theorem collectAll_roots_eq {limit : Nat} {roots : List Expr} {ds : List Declaration}
    (h : collectAll limit [] none roots = .ok ds) :
    ds = (Script.itemProperties 0 roots).filterMap (ofProperty? []) :=
  collectAll_eq 0 h

/-- A walk that succeeds finds the same with every greater limit. -/
theorem collectAll_of_le {limit limit' : Nat} {roots : List Expr} {ds : List Declaration}
    (h : collectAll limit [] none roots = .ok ds) (hle : limit ≤ limit') :
    collectAll limit' [] none roots = .ok ds := by
  have hnone : firstDeep limit 0 [] (Script.themeLiterals roots) = none := by
    rw [← fault?_roots, h, fault?]
  have hnone' : fault? (collectAll limit' [] none roots) = none := by
    rw [fault?_roots, firstDeep_eq_none_iff]
    intro o ho
    have := firstDeep_eq_none_iff.1 hnone o ho
    omega
  cases hds : collectAll limit' [] none roots with
  | error fault =>
    rw [hds] at hnone'
    cases hnone'
  | ok ds' =>
    have hsame : ds' = ds := (collectAll_roots_eq hds).trans (collectAll_roots_eq h).symm
    rw [hsame]

end Declaration

namespace Declared
open Script (Enclosed)

/-- Of the object literals in root themes that lie inside of `limit` others or more, this one begins
first. -/
structure IsFirstBeyond (limit : Nat) (roots : List Expr) (o : Enclosed) : Prop where
  inTheme : Script.InTheme roots o
  deep : limit ≤ o.around
  first : ∀ o', Script.InTheme roots o' → limit ≤ o'.around → o.span.start ≤ o'.span.start

/-- What the limit decides about a script: whether it is refused and where, and nothing else. -/
structure LimitsDepth (source : String) (options : Options) (roots : List Expr) : Prop where
  refused_iff : (∃ fault, extract source options = .error (.depth fault)) ↔
    ∃ o, Script.InTheme roots o ∧ options.maxDepth ≤ o.around
  fault_iff : ∀ fault, extract source options = .error (.depth fault) ↔
    ∃ o, IsFirstBeyond options.maxDepth roots o ∧
      fault = ⟨o.names.map Declaration.nameText, options.maxDepth, o.span⟩
  message : ∀ fault o, extract source options = .error (.depth fault) →
    IsFirstBeyond options.maxDepth roots o →
      fault.message = "Token group under '" ++ ".".intercalate (o.names.map Declaration.nameText) ++
        "' is nested deeper than " ++ toString options.maxDepth ++ " levels"
  kept : ∀ d options', extract source options = .ok d → options.maxDepth ≤ options'.maxDepth →
    extract source options' = .ok d

section
variable {source : String} {options : Options} {roots : List Expr}

theorem extract_of_document (h : Script.document source = .ok roots) :
    extract source options = (ofRoots options roots).mapError .depth := by
  rw [extract, h]

theorem extract_eq_depth_iff (h : Script.document source = .ok roots) {fault : DepthFault} :
    extract source options = .error (.depth fault) ↔
      Declaration.firstDeep options.maxDepth 0 [] (Script.themeLiterals roots) = some fault := by
  rw [extract_of_document h, ← Declaration.fault?_roots, ofRoots]
  cases Declaration.collectAll options.maxDepth [] none roots with
  | error fault' => simp [Except.map, Except.mapError, Declaration.fault?]
  | ok ds => simp [Except.map, Except.mapError, Declaration.fault?]

theorem firstDeep_eq_some_iff (h : Script.document source = .ok roots) {limit : Nat}
    {fault : DepthFault} :
    Declaration.firstDeep limit 0 [] (Script.themeLiterals roots) = some fault ↔
      ∃ o, IsFirstBeyond limit roots o ∧
        fault = ⟨o.names.map Declaration.nameText, limit, o.span⟩ := by
  rw [Declaration.firstDeep, Option.map_eq_some_iff]
  refine exists_congr fun o => and_congr ?_ eq_comm
  rw [Script.find?_eq_some_iff_first (Script.themeLiterals_ordered h)]
  simp only [Script.mem_themeLiterals_iff, Nat.zero_add, decide_eq_true_eq]
  exact ⟨fun ⟨ho, hdeep, hfirst⟩ => ⟨ho, hdeep, hfirst⟩,
    fun ⟨ho, hdeep, hfirst⟩ => ⟨ho, hdeep, hfirst⟩⟩

private theorem extract_of_le {options' : Options} {d : Declared}
    (h : extract source options = .ok d)
    (hle : options.maxDepth ≤ options'.maxDepth) : extract source options' = .ok d := by
  obtain ⟨roots, hroots, hd⟩ := extract_eq_ok_iff.1 h
  obtain ⟨ds, hds, rfl⟩ := ofRoots_eq_ok_iff.1 hd
  exact extract_eq_ok_iff.2
    ⟨roots, hroots, ofRoots_eq_ok_iff.2 ⟨ds, Declaration.collectAll_of_le hds hle, rfl⟩⟩

/-- The limit refuses the scripts with object literals that lie inside of too many others in a root
theme, at the first of them, and changes nothing else. -/
theorem limits_depth (h : Script.document source = .ok roots) :
    LimitsDepth source options roots := by
  have hfault : ∀ fault, extract source options = .error (.depth fault) ↔
      ∃ o, IsFirstBeyond options.maxDepth roots o ∧
        fault = ⟨o.names.map Declaration.nameText, options.maxDepth, o.span⟩ := fun fault =>
    (extract_eq_depth_iff h).trans (firstDeep_eq_some_iff h)
  refine ⟨⟨?_, ?_⟩, hfault, ?_, fun d options' hd hle => extract_of_le hd hle⟩
  · rintro ⟨fault, hf⟩
    obtain ⟨o, ho, -⟩ := (hfault fault).1 hf
    exact ⟨o, ho.inTheme, ho.deep⟩
  · rintro ⟨o, ho, hdeep⟩
    simp only [extract_eq_depth_iff h, ← Option.isSome_iff_exists, Declaration.firstDeep,
      Option.isSome_map, List.find?_isSome]
    exact ⟨o, Script.mem_themeLiterals_iff.2 ho, by simpa using hdeep⟩
  · intro fault o hf ho
    obtain rfl := ExtractionFault.depth.inj (Except.error.inj
      (hf.symm.trans ((hfault _).2 ⟨o, ho, rfl⟩)))
    rfl

end

/-- An object in a call and one that is spread. -/
def nestedThemes : String := "{theme: {colors: [f({a: {}})], ...{x: {}}}}"

theorem limits_depth_call : ∃ roots, Script.document nestedThemes = .ok roots ∧
    LimitsDepth nestedThemes { Options.standard with maxDepth := 2 } roots ∧
    extract nestedThemes { Options.standard with maxDepth := 2 } =
      .error (.depth ⟨["theme", "colors", "a"], 2, ⟨24, 26⟩⟩) := by
  have hlength : (Script.document nestedThemes).map List.length = .ok 1 := by decide +kernel
  have he : extract nestedThemes { Options.standard with maxDepth := 2 } =
      .error (.depth ⟨["theme", "colors", "a"], 2, ⟨24, 26⟩⟩) := by
    decide +kernel
  cases h : Script.document nestedThemes with
  | error fault =>
    rw [h] at hlength
    cases hlength
  | ok roots => exact ⟨roots, rfl, limits_depth h, he⟩

end Declared
end DesignTokens
