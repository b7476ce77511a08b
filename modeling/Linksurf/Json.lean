import Linksurf.Dict
import Mathlib

/-!
# Python values and JSON documents

Values of built-in types with dataclass instances inside, `dataclasses.asdict`
and the conversions of the `json` module. A document is the tree a JSON text
stands for; the text itself, which both directions agree on, is left out.
Floats are exact rationals.
-/
namespace Json

/-- A dictionary key: a string, another scalar with the text `json` writes for
it, or a key it refuses. -/
inductive Key where
  | str (s : String)
  | scalar (text : String)
  | other
  deriving DecidableEq

/-- A value with instances of the dataclasses `R`; `other` is anything `json`
refuses. -/
inductive Value (R : Type) where
  | none
  | bool (b : Bool)
  | int (n : Int)
  | float (x : ℚ)
  | str (s : String)
  | list (xs : List (Value R))
  | tuple (xs : List (Value R))
  | dict (entries : List (Key × Value R))
  | record (r : R)
  | other

/-- Values without dataclass instances. -/
abbrev Plain := Value Empty

inductive Document where
  | null
  | bool (b : Bool)
  | int (n : Int)
  | float (x : ℚ)
  | str (s : String)
  | array (xs : List Document)
  | object (members : List (String × Document))

section Asdict

variable {R : Type} (fields : R → Plain)

mutual

/-- `dataclasses.asdict` of the values inside a dataclass, where an instance of
`R` becomes the dictionary of its fields. -/
def asdict : Value R → Plain
  | .none => .none
  | .bool b => .bool b
  | .int n => .int n
  | .float x => .float x
  | .str s => .str s
  | .list xs => .list (asdictList xs)
  | .tuple xs => .tuple (asdictList xs)
  | .dict es => .dict (asdictEntries es)
  | .record r => fields r
  | .other => .other

def asdictList : List (Value R) → List Plain
  | [] => []
  | x :: xs => asdict x :: asdictList xs

def asdictEntries : List (Key × Value R) → List (Key × Plain)
  | [] => []
  | (k, x) :: es => (k, asdict x) :: asdictEntries es

end

mutual

/-- A plain value as one with instances. -/
def lift : Plain → Value R
  | .none => .none
  | .bool b => .bool b
  | .int n => .int n
  | .float x => .float x
  | .str s => .str s
  | .list xs => .list (liftList xs)
  | .tuple xs => .tuple (liftList xs)
  | .dict es => .dict (liftEntries es)
  | .other => .other

def liftList : List Plain → List (Value R)
  | [] => []
  | x :: xs => lift x :: liftList xs

def liftEntries : List (Key × Plain) → List (Key × Value R)
  | [] => []
  | (k, x) :: es => (k, lift x) :: liftEntries es

end

mutual

/-- A value without instances is its own `asdict`. -/
theorem asdict_lift : ∀ v : Plain, asdict fields (lift v) = v
  | .none | .bool _ | .int _ | .float _ | .str _ | .other => rfl
  | .list xs => by rw [lift, asdict, asdictList_lift xs]
  | .tuple xs => by rw [lift, asdict, asdictList_lift xs]
  | .dict es => by rw [lift, asdict, asdictEntries_lift es]

theorem asdictList_lift : ∀ xs : List Plain, asdictList fields (liftList xs) = xs
  | [] => rfl
  | x :: xs => by rw [liftList, asdictList, asdict_lift x, asdictList_lift xs]

theorem asdictEntries_lift : ∀ es : List (Key × Plain), asdictEntries fields (liftEntries es) = es
  | [] => rfl
  | (k, x) :: es => by rw [liftEntries, asdictEntries, asdict_lift x, asdictEntries_lift es]

end

end Asdict

/-! ## Documents -/

/-- The member name of a key. -/
def Key.name? : Key → Option String
  | .str s => some s
  | .scalar text => some text
  | .other => none

mutual

/-- `json.dumps`, `none` where it raises `TypeError`. -/
def dumps : Plain → Option Document
  | .none => some .null
  | .bool b => some (.bool b)
  | .int n => some (.int n)
  | .float x => some (.float x)
  | .str s => some (.str s)
  | .list xs => (dumpsList xs).map .array
  | .tuple xs => (dumpsList xs).map .array
  | .dict es => (dumpsEntries es).map .object
  | .other => none

def dumpsList : List Plain → Option (List Document)
  | [] => some []
  | x :: xs => (dumps x).bind (fun d => (dumpsList xs).map (d :: ·))

def dumpsEntries : List (Key × Plain) → Option (List (String × Document))
  | [] => some []
  | (k, x) :: es => k.name?.bind (fun name => (dumps x).bind (fun d =>
      (dumpsEntries es).map ((name, d) :: ·)))

end

/-- A dictionary read member by member: a repeated name keeps its place and
takes the later value. -/
def ofMembers (es : List (String × Plain)) : Plain :=
  .dict ((es.foldl (fun d e => Dicts.Dict.set d e.1 e.2) Dicts.Dict.empty).entries.map (fun e => (.str e.1, e.2)))

mutual

/-- `json.loads`. -/
def loads : Document → Plain
  | .null => .none
  | .bool b => .bool b
  | .int n => .int n
  | .float x => .float x
  | .str s => .str s
  | .array xs => .list (loadsList xs)
  | .object ms => ofMembers (loadsMembers ms)

def loadsList : List Document → List Plain
  | [] => []
  | x :: xs => loads x :: loadsList xs

def loadsMembers : List (String × Document) → List (String × Plain)
  | [] => []
  | (name, x) :: ms => (name, loads x) :: loadsMembers ms

end

/-! ## Values that pass unchanged -/

/-- A dictionary with string keys. -/
def object (es : List (String × Plain)) : Plain := .dict (es.map (fun e => (.str e.1, e.2)))

mutual

/-- Scalars, lists and dictionaries with distinct string keys. -/
def Compatible : Plain → Prop
  | .none | .bool _ | .int _ | .float _ | .str _ => True
  | .list xs => CompatibleList xs
  | .dict es => (∃ names : List String, names.Nodup ∧ es.map Prod.fst = names.map Key.str) ∧ CompatibleEntries es
  | .tuple _ | .other => False

def CompatibleList : List Plain → Prop
  | [] => True
  | x :: xs => Compatible x ∧ CompatibleList xs

def CompatibleEntries : List (Key × Plain) → Prop
  | [] => True
  | (_, x) :: es => Compatible x ∧ CompatibleEntries es

end

/-- What a value is on the other side: `json.loads(json.dumps(v))`. -/
def throughJson (v : Plain) : Option Plain := (dumps v).map loads

/-- Members with distinct names are kept as they are. -/
theorem ofMembers_of_nodup {es : List (String × Plain)} (h : (es.map Prod.fst).Nodup) : ofMembers es = object es := by
  rw [ofMembers, Dicts.Dict.entries_foldl_set es Dicts.Dict.empty (by simpa [Dicts.Dict.empty] using h)]
  rfl

theorem dumpsEntries_object {es : List (String × Plain)} :
    dumpsEntries (es.map (fun e => (Key.str e.1, e.2))) =
      es.mapM (fun e => (dumps e.2).map (fun d => (e.1, d))) := by
  induction es with
  | nil => rfl
  | cons e es ih =>
    rw [List.map_cons, dumpsEntries, ih, List.mapM_cons]
    cases dumps e.2 with
    | none => rfl
    | some d =>
      cases es.mapM (fun e => (dumps e.2).map (fun d => (e.1, d))) <;> rfl

/-- Members that pass keep their names. -/
theorem throughJson_names {es vs : List (String × Plain)}
    (h : es.mapM (fun e => (throughJson e.2).map (fun v => (e.1, v))) = some vs) :
    vs.map Prod.fst = es.map Prod.fst := by
  induction es generalizing vs with
  | nil =>
    cases h
    rfl
  | cons e es ih =>
    rw [List.mapM_cons] at h
    obtain ⟨v, hv, h⟩ := Option.bind_eq_some_iff.mp h
    obtain ⟨ws, hws, h⟩ := Option.bind_eq_some_iff.mp h
    cases h
    obtain ⟨w, -, rfl⟩ := Option.map_eq_some_iff.mp hv
    rw [List.map_cons, List.map_cons, ih hws]

/-- A dictionary with distinct string keys passes member by member. -/
theorem throughJson_object {es : List (String × Plain)} (h : (es.map Prod.fst).Nodup) :
    throughJson (object es) = (es.mapM (fun e => (throughJson e.2).map (fun v => (e.1, v)))).map object := by
  have hmap : ∀ es : List (String × Plain), (es.mapM (fun e => (dumps e.2).map (fun d => (e.1, d)))).map loadsMembers =
      es.mapM (fun e => (throughJson e.2).map (fun v => (e.1, v))) := by
    intro es
    induction es with
    | nil => rfl
    | cons e es ih =>
      rw [List.mapM_cons, List.mapM_cons, ← ih]
      unfold throughJson
      cases dumps e.2 with
      | none => rfl
      | some d => cases es.mapM (fun e => (dumps e.2).map (fun d => (e.1, d))) <;> rfl
  rw [throughJson, object, dumps, dumpsEntries_object, ← hmap, Option.map_map, Option.map_map]
  cases hd : es.mapM (fun e => (dumps e.2).map (fun d => (e.1, d))) with
  | none => rfl
  | some ms =>
    have hvs := hmap es
    rw [hd, Option.map_some] at hvs
    have hnodup : ((loadsMembers ms).map Prod.fst).Nodup := by rw [throughJson_names hvs.symm]; exact h
    simp only [Option.map_some, Function.comp_apply, loads, ofMembers_of_nodup hnodup]

mutual

theorem dumps_of_compatible : ∀ v : Plain, Compatible v → ∃ d, dumps v = some d ∧ loads d = v
  | .none, _ => ⟨.null, rfl, rfl⟩
  | .bool b, _ => ⟨.bool b, rfl, rfl⟩
  | .int n, _ => ⟨.int n, rfl, rfl⟩
  | .float x, _ => ⟨.float x, rfl, rfl⟩
  | .str s, _ => ⟨.str s, rfl, rfl⟩
  | .list xs, h => by
    obtain ⟨ds, hds, hxs⟩ := dumpsList_of_compatible xs h
    exact ⟨.array ds, by rw [dumps, hds]; rfl, by rw [loads, hxs]⟩
  | .dict es, h => by
    obtain ⟨⟨names, hnodup, hnames⟩, hes⟩ := h
    obtain ⟨ms, hms, hback⟩ := dumpsEntries_of_compatible es hes ⟨names, hnames⟩
    have hfst : (loadsMembers ms).map Prod.fst = names := by
      apply List.map_injective_iff.mpr (fun a b he => Key.str.inj he : Function.Injective Key.str)
      rw [← hnames, ← hback, List.map_map, List.map_map]
      rfl
    exact ⟨.object ms, by rw [dumps, hms]; rfl, by
      rw [loads, ofMembers_of_nodup (by rw [hfst]; exact hnodup), object, hback]⟩

theorem dumpsList_of_compatible : ∀ xs : List Plain, CompatibleList xs →
    ∃ ds, dumpsList xs = some ds ∧ loadsList ds = xs
  | [], _ => ⟨[], rfl, rfl⟩
  | x :: xs, h => by
    obtain ⟨d, hd, hx⟩ := dumps_of_compatible x h.1
    obtain ⟨ds, hds, hxs⟩ := dumpsList_of_compatible xs h.2
    exact ⟨d :: ds, by rw [dumpsList, hd, hds]; rfl, by rw [loadsList, hx, hxs]⟩

theorem dumpsEntries_of_compatible : ∀ es : List (Key × Plain), CompatibleEntries es →
    (∃ names : List String, es.map Prod.fst = names.map Key.str) →
    ∃ ms, dumpsEntries es = some ms ∧ (loadsMembers ms).map (fun e => (Key.str e.1, e.2)) = es
  | [], _, _ => ⟨[], rfl, rfl⟩
  | (k, x) :: es, h, hk => by
    obtain ⟨names, hnames⟩ := hk
    cases names with
    | nil => cases hnames
    | cons name names =>
      obtain ⟨hname, hrest⟩ := List.cons.inj hnames
      obtain ⟨d, hd, hx⟩ := dumps_of_compatible x h.1
      obtain ⟨ms, hms, hback⟩ := dumpsEntries_of_compatible es h.2 ⟨names, hrest⟩
      have hkey : k = .str name := hname
      refine ⟨(name, d) :: ms, ?_, ?_⟩
      · rw [dumpsEntries, hkey, hd, hms]
        rfl
      · rw [loadsMembers, List.map_cons, hback, hx, hkey]

end

/-- A compatible value is read back as it was written. -/
theorem throughJson_of_compatible {v : Plain} (h : Compatible v) : throughJson v = some v := by
  obtain ⟨d, hd, hv⟩ := dumps_of_compatible v h
  rw [throughJson, hd, Option.map_some, hv]

theorem compatible_object {es : List (String × Plain)} (hn : (es.map Prod.fst).Nodup)
    (h : ∀ e ∈ es, Compatible e.2) : Compatible (object es) := by
  have hes : ∀ es : List (String × Plain), (∀ e ∈ es, Compatible e.2) →
      CompatibleEntries (es.map (fun e => (Key.str e.1, e.2))) := by
    intro es
    induction es with
    | nil => exact fun _ => trivial
    | cons e es ih => exact fun h => ⟨h e (List.mem_cons_self ..), ih (fun x hx => h x (List.mem_cons_of_mem _ hx))⟩
  refine ⟨⟨es.map Prod.fst, hn, ?_⟩, hes es h⟩
  rw [List.map_map, List.map_map]
  rfl

theorem compatible_list {xs : List Plain} (h : ∀ x ∈ xs, Compatible x) : Compatible (.list xs) := by
  change CompatibleList xs
  induction xs with
  | nil => trivial
  | cons x xs ih => exact ⟨h x (List.mem_cons_self ..), ih (fun y hy => h y (List.mem_cons_of_mem _ hy))⟩

/-- Compatible members pass as they are. -/
theorem throughJson_members {es : List (String × Plain)} (h : ∀ e ∈ es, Compatible e.2) :
    es.mapM (fun e => (throughJson e.2).map (fun v => (e.1, v))) = some es := by
  induction es with
  | nil => rfl
  | cons e es ih =>
    rw [List.mapM_cons, throughJson_of_compatible (h e (List.mem_cons_self ..)),
      ih (fun x hx => h x (List.mem_cons_of_mem _ hx))]
    rfl

/-- A dictionary whose members pass, all but one as they are. -/
theorem throughJson_object_hole {before after : List (String × Plain)} {name : String} {v : Plain}
    (hn : ((before ++ (name, v) :: after).map Prod.fst).Nodup) (hbefore : ∀ e ∈ before, Compatible e.2)
    (hafter : ∀ e ∈ after, Compatible e.2) :
    throughJson (object (before ++ (name, v) :: after)) =
      (throughJson v).map (fun w => object (before ++ (name, w) :: after)) := by
  rw [throughJson_object hn, List.mapM_append, List.mapM_cons, throughJson_members hbefore,
    throughJson_members hafter]
  cases throughJson v <;> rfl

/-- A dictionary whose members pass, all but two as they are. -/
theorem throughJson_object_holes {before between after : List (String × Plain)} {name name' : String} {v v' x : Plain}
    (hn : ((before ++ (name, v) :: (between ++ (name', v') :: after)).map Prod.fst).Nodup)
    (hbefore : ∀ e ∈ before, Compatible e.2) (hbetween : ∀ e ∈ between, Compatible e.2)
    (hafter : ∀ e ∈ after, Compatible e.2)
    (hx : throughJson (object (before ++ (name, v) :: (between ++ (name', v') :: after))) = some x) :
    ∃ w w', throughJson v = some w ∧ throughJson v' = some w' ∧
      x = object (before ++ (name, w) :: (between ++ (name', w') :: after)) := by
  rw [throughJson_object hn, List.mapM_append, List.mapM_cons, List.mapM_append, List.mapM_cons,
    throughJson_members hbefore, throughJson_members hbetween, throughJson_members hafter] at hx
  cases hv : throughJson v with
  | none =>
    rw [hv] at hx
    cases hx
  | some w =>
    cases hv' : throughJson v' with
    | none =>
      rw [hv, hv'] at hx
      cases hx
    | some w' =>
      rw [hv, hv'] at hx
      exact ⟨w, w', rfl, rfl, (Option.some.inj hx).symm⟩

/-! ## Reading values -/

/-- The truth value of a Python object. -/
def truthy : Plain → Bool
  | .none => false
  | .bool b => b
  | .int n => n ≠ 0
  | .float x => x ≠ 0
  | .str s => s ≠ ""
  | .list xs | .tuple xs => !xs.isEmpty
  | .dict es => !es.isEmpty
  | .record r => nomatch r
  | .other => true

def asString : Plain → Option String
  | .str s => some s
  | _ => none

def asInt : Plain → Option Int
  | .int n => some n
  | _ => none

def asFloat : Plain → Option ℚ
  | .float x => some x
  | _ => none

def asBool : Plain → Option Bool
  | .bool b => some b
  | _ => none

variable {α : Type}

def asList (read : Plain → Option α) : Plain → Option (List α)
  | .list xs => xs.mapM read
  | _ => none

/-- A value that may be `None`. -/
def asOptional (read : Plain → Option α) : Plain → Option (Option α)
  | .none => some none
  | v => (read v).map some

def stringKey : Key × Plain → Option (String × Plain)
  | (.str s, v) => some (s, v)
  | _ => none

/-- The members of a dictionary with string keys. -/
def asObject : Plain → Option (List (String × Plain))
  | .dict es => es.mapM stringKey
  | _ => none

/-- `data.get(name, default)`. -/
def getDefault (data : List (String × Plain)) (name : String) (read : Plain → Option α) (default : α) : Option α :=
  (data.lookup name).elim (some default) read

/-- `data[name]`. -/
def getItem (data : List (String × Plain)) (name : String) (read : Plain → Option α) : Option α :=
  (data.lookup name).bind read

/-- Keyword arguments, refused where one is not a parameter. -/
def kwargs (parameters : List String) (data : Plain) : Option (List (String × Plain)) := do
  let es ← asObject data
  if es.all (fun e => e.1 ∈ parameters) then some es else none

/-- An optional value as it is written. -/
def optional (write : α → Plain) : Option α → Plain
  | none => .none
  | some a => write a

@[simp] theorem asString_str (s : String) : asString (.str s) = some s := rfl
@[simp] theorem asInt_int (n : Int) : asInt (.int n) = some n := rfl
@[simp] theorem asFloat_float (x : ℚ) : asFloat (.float x) = some x := rfl
@[simp] theorem asBool_bool (b : Bool) : asBool (.bool b) = some b := rfl

@[simp] theorem asObject_object (es : List (String × Plain)) : asObject (object es) = some es := by
  change (es.map (fun e => (Key.str e.1, e.2))).mapM stringKey = some es
  induction es with
  | nil => rfl
  | cons e es ih => rw [List.map_cons, List.mapM_cons, ih]; rfl

theorem asList_map {read : Plain → Option α} {write : α → Plain} (h : ∀ a, read (write a) = some a) (xs : List α) :
    asList read (.list (xs.map write)) = some xs := by
  change (xs.map write).mapM read = some xs
  induction xs with
  | nil => rfl
  | cons x xs ih => rw [List.map_cons, List.mapM_cons, h, ih]; rfl

theorem asOptional_optional {read : Plain → Option α} {write : α → Plain} (h : ∀ a, read (write a) = some a)
    (hnone : read .none = none) (a : Option α) : asOptional read (optional write a) = some a := by
  cases a with
  | none => rfl
  | some a =>
    have hne : write a ≠ .none := by
      intro he
      have ha := h a
      rw [he, hnone] at ha
      cases ha
    change asOptional read (write a) = some (some a)
    unfold asOptional
    split
    · rename_i hw
      exact absurd hw hne
    · rw [h, Option.map_some]

@[simp] theorem asOptional_str (s : Option String) : asOptional asString (optional .str s) = some s :=
  asOptional_optional asString_str rfl s

end Json
