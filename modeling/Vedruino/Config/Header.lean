import Mathlib.Data.List.Forall2

/-!
# The configuration header

`tools/config.py` turns a configuration into the macros of `src/conf.h`. Which macros it defines does not depend on the configuration, only their values do. The header is modelled as the list of its definitions.
-/

namespace Vedruino.Config

/-- What a key of a section is read as: its value, or an `InterpolationError` where a `%` in it names nothing that can stand there. -/
inductive Entry
  | value (text : String)
  | interpolationError
  deriving DecidableEq, Repr

/-- The sections of `conf` with their keys. -/
abbrev Ini := String → Option (String → Option Entry)

inductive KeyType
  | int | str | bool
  deriving DecidableEq, Repr

inductive Value
  | int (n : Int)
  | str (s : String)
  deriving DecidableEq, Repr

structure Def where
  name : String
  value : Value
  deriving DecidableEq, Repr

inductive Err
  | notFound (section_ key : String)
  /-- The exception of `configparser`, which the script does not catch. -/
  | interpolationError (section_ key : String)
  | expectedInt (section_ key : String)
  | keyError (value : String)
  | required (module dep : String)
  deriving DecidableEq, Repr

/-- `replace('.', '_')` and `upper` on the names of the script. -/
def macroPart (s : String) : List Char := s.toList.map fun c => if c = '.' then '_' else c.toUpper

/-- The name in `#define CONF_{section}_{key}`. -/
def macroName (section_ key : String) : String :=
  String.ofList ("CONF_".toList ++ macroPart section_ ++ '_' :: macroPart key)

def getParamOrFail (ini : Ini) (section_ key : String) : Except Err String :=
  match ini section_ with
  | none => .error (.notFound section_ key)
  | some keys =>
    match keys key with
    | none => .error (.notFound section_ key)
    | some .interpolationError => .error (.interpolationError section_ key)
    | some (.value text) => .ok text

/-- `add_def` with a type. `int` is Python's conversion of a string. -/
def addDef (int : String → Option Int) (ini : Ini) (section_ key : String) (type : KeyType) : Except Err Def := do
  let value ← getParamOrFail ini section_ key
  match type with
  | .int =>
    match int value with
    | some n => .ok ⟨macroName section_ key, .int n⟩
    | none => .error (.expectedInt section_ key)
  | .str => .ok ⟨macroName section_ key, .str value⟩
  | .bool =>
    if value = "true" then .ok ⟨macroName section_ key, .int 1⟩
    else if value = "false" then .ok ⟨macroName section_ key, .int 0⟩
    else .error (.keyError value)

def KeyType.default : KeyType → Value
  | .int | .bool => .int 0
  | .str => .str ""

def isModuleEnabled (ini : Ini) (section_ : String) : Except Err Bool :=
  if (ini section_).isNone then .ok false
  else do
    let value ← getParamOrFail ini section_ "enabled"
    .ok (value = "true")

/-- `add_module_start`: the macro of `enabled`. -/
def addModuleStart (int : String → Option Int) (ini : Ini) (section_ : String) (enabled : Bool) : Except Err Def :=
  if enabled then addDef int ini section_ "enabled" .bool else .ok ⟨macroName section_ "enabled", .int 0⟩

def addKey (int : String → Option Int) (ini : Ini) (section_ : String) (enabled : Bool) (key : String × KeyType) :
    Except Err Def :=
  if enabled then addDef int ini section_ key.1 key.2 else .ok ⟨macroName section_ key.1, key.2.default⟩

def addModule (int : String → Option Int) (ini : Ini) (m : String × List (String × KeyType)) : Except Err (List Def) := do
  let enabled ← isModuleEnabled ini m.1
  let first ← addModuleStart int ini m.1 enabled
  let rest ← m.2.mapM (addKey int ini m.1 enabled)
  .ok (first :: rest)

def logKeys : List (String × KeyType) :=
  [("lib_level", .int), ("app_level", .int), ("print_file_line", .bool), ("print_time", .bool),
    ("print_color", .bool), ("btrace_on_error", .bool)]

def miscKeys : List (String × KeyType) := [("startup_delay", .int), ("pk_assert", .bool)]

def modules : List (String × List (String × KeyType)) :=
  [("lib.mdns", []), ("lib.ip", []), ("lib.wifi", [("ssid", .str), ("password", .str), ("retry", .int)]),
    ("lib.netlog", [("max_clients", .int), ("buf_size", .int)]),
    ("lib.mqtt", [("host", .str), ("port", .int), ("user", .str), ("password", .str), ("retry", .int)]),
    ("lib.ota", [("verify_md5", .bool)]), ("lib.json", []), ("lib.i2c", [("run_scanner", .bool)])]

def libDeps : List (String × List String) :=
  [("lib.ip", ["lib.wifi"]), ("lib.netlog", ["lib.ip"]), ("lib.mqtt", ["lib.wifi"]), ("lib.ota", ["lib.ip"])]

def checkDeps (ini : Ini) (deps : List (String × List String)) : Except Err Unit :=
  deps.forM fun m => do
    if ← isModuleEnabled ini m.1 then
      m.2.forM fun d => do
        if ← isModuleEnabled ini d then .ok () else .error (.required d m.1)
    else .ok ()

def genHeader (int : String → Option Int) (ini : Ini) : Except Err (List Def) := do
  let log ← logKeys.mapM fun k => addDef int ini "log" k.1 k.2
  let misc ← miscKeys.mapM fun k => addDef int ini "misc" k.1 k.2
  let mods ← modules.mapM (addModule int ini)
  checkDeps ini libDeps
  .ok (log ++ misc ++ mods.flatten)

/-- The value of an identifier in `#if`: 0 where it is not defined. -/
def ifValue (defs : List Def) (name : String) : Int :=
  match defs.find? (·.name = name) with
  | some ⟨_, .int n⟩ => n
  | _ => 0

/-! ### Which macros there are -/

def moduleNames (m : String × List (String × KeyType)) : List String :=
  macroName m.1 "enabled" :: m.2.map fun k => macroName m.1 k.1

/-- The macros of the header, for every configuration. -/
def headerNames : List String :=
  logKeys.map (fun k => macroName "log" k.1) ++ miscKeys.map (fun k => macroName "misc" k.1) ++
    (modules.map moduleNames).flatten

theorem bind_eq_ok {α β ε : Type} {x : Except ε α} {f : α → Except ε β} {b : β} :
    x >>= f = .ok b ↔ ∃ a, x = .ok a ∧ f a = .ok b := by
  cases x with
  | error e => exact ⟨fun h => (by cases h), fun ⟨_, h, _⟩ => (by cases h)⟩
  | ok a =>
    constructor
    · intro h
      exact ⟨a, rfl, h⟩
    · intro h
      obtain ⟨a', h, hf⟩ := h
      cases h
      exact hf

theorem forall₂_of_mapM {α β ε : Type} {f : α → Except ε β} {xs : List α} {ys : List β} (h : xs.mapM f = .ok ys) :
    List.Forall₂ (fun x y => f x = .ok y) xs ys := by
  induction xs generalizing ys with
  | nil =>
    cases h
    exact .nil
  | cons x xs ih =>
    rw [List.mapM_cons, bind_eq_ok] at h
    obtain ⟨y, hy, h⟩ := h
    rw [bind_eq_ok] at h
    obtain ⟨zs, hzs, h⟩ := h
    cases h
    exact .cons hy (ih hzs)

private theorem exists_of_mapM {α β ε : Type} {f : α → Except ε β} {xs : List α} {ys : List β} (h : xs.mapM f = .ok ys) {x : α}
    (hx : x ∈ xs) : ∃ y ∈ ys, f x = .ok y := by
  have hall := forall₂_of_mapM h
  clear h
  induction hall with
  | nil => cases hx
  | cons hy _ ih =>
    rcases List.mem_cons.1 hx with rfl | hx
    · exact ⟨_, List.mem_cons_self, hy⟩
    · obtain ⟨z, hz, hfz⟩ := ih hx
      exact ⟨z, List.mem_cons_of_mem _ hz, hfz⟩

theorem map_of_mapM {α β γ ε : Type} {f : α → Except ε β} {g : β → γ} {k : α → γ} {xs : List α} {ys : List β}
    (hf : ∀ x y, f x = .ok y → g y = k x) (h : xs.mapM f = .ok ys) : ys.map g = xs.map k := by
  have hall := forall₂_of_mapM h
  clear h
  induction hall with
  | nil => rfl
  | cons hy _ ih => rw [List.map_cons, List.map_cons, hf _ _ hy, ih]

variable {int : String → Option Int} {ini : Ini}

theorem addDef_name {section_ key : String} {type : KeyType} {d : Def} (h : addDef int ini section_ key type = .ok d) :
    d.name = macroName section_ key := by
  rw [addDef, bind_eq_ok] at h
  obtain ⟨value, -, h⟩ := h
  cases type with
  | int =>
    dsimp only at h
    split at h <;> cases h
    rfl
  | str =>
    cases h
    rfl
  | bool =>
    dsimp only at h
    split at h
    · cases h
      rfl
    · split at h <;> cases h
      rfl

private theorem addModule_names {m : String × List (String × KeyType)} {defs : List Def} (h : addModule int ini m = .ok defs) :
    defs.map Def.name = moduleNames m := by
  simp only [addModule, bind_eq_ok] at h
  obtain ⟨enabled, -, first, hfirst, rest, hrest, h⟩ := h
  cases h
  rw [moduleNames, List.map_cons]
  congr 1
  · rw [addModuleStart] at hfirst
    split at hfirst
    · exact addDef_name hfirst
    · cases hfirst
      rfl
  · refine map_of_mapM (fun k d hd => ?_) hrest
    rw [addKey] at hd
    split at hd
    · exact addDef_name hd
    · cases hd
      rfl

theorem genHeader_names {defs : List Def} (h : genHeader int ini = .ok defs) : defs.map Def.name = headerNames := by
  simp only [genHeader, bind_eq_ok] at h
  obtain ⟨log, hlog, misc, hmisc, mods, hmods, -, -, h⟩ := h
  cases h
  rw [headerNames, List.map_append, List.map_append, List.map_flatten]
  congr 1
  · congr 1
    · exact map_of_mapM (fun _ _ => addDef_name) hlog
    · exact map_of_mapM (fun _ _ => addDef_name) hmisc
  · rw [map_of_mapM (fun _ _ => addModule_names) hmods]

private theorem addDef_true {section_ key : String} {d : Def} (hvalue : getParamOrFail ini section_ key = .ok "true")
    (h : addDef int ini section_ key .bool = .ok d) : d = ⟨macroName section_ key, .int 1⟩ := by
  rw [addDef, hvalue] at h
  cases h
  rfl

private theorem isModuleEnabled_true {section_ : String} (h : getParamOrFail ini section_ "enabled" = .ok "true") :
    isModuleEnabled ini section_ = .ok true := by
  have hsome : ¬ (ini section_).isNone = true := by
    intro hnone
    rw [getParamOrFail, Option.isNone_iff_eq_none.1 hnone] at h
    cases h
  rw [isModuleEnabled, if_neg hsome, h]
  rfl

theorem mem_of_enabled {section_ : String} {keys : List (String × KeyType)} {defs : List Def}
    (hmodule : (section_, keys) ∈ modules) (henabled : getParamOrFail ini section_ "enabled" = .ok "true")
    (hgen : genHeader int ini = .ok defs) :
    ⟨macroName section_ "enabled", .int 1⟩ ∈ defs ∧ ∀ key, (key, .bool) ∈ keys →
      getParamOrFail ini section_ key = .ok "true" → ⟨macroName section_ key, .int 1⟩ ∈ defs := by
  simp only [genHeader, bind_eq_ok] at hgen
  obtain ⟨log, -, misc, -, mods, hmods, -, -, h⟩ := hgen
  cases h
  obtain ⟨ds, hds, hmod⟩ := exists_of_mapM hmods hmodule
  have hsub : ∀ d ∈ ds, d ∈ log ++ misc ++ mods.flatten := fun d hd =>
    List.mem_append_right _ (List.mem_flatten.2 ⟨ds, hds, hd⟩)
  simp only [addModule, bind_eq_ok] at hmod
  obtain ⟨enabled, hen, first, hfirst, rest, hrest, h⟩ := hmod
  cases h
  rw [isModuleEnabled_true henabled] at hen
  cases hen
  constructor
  · rw [addModuleStart, if_pos rfl] at hfirst
    rw [← addDef_true henabled hfirst]
    exact hsub _ List.mem_cons_self
  · intro key hkey hvalue
    obtain ⟨d, hd, hdef⟩ := exists_of_mapM hrest hkey
    rw [addKey, if_pos rfl] at hdef
    rw [← addDef_true hvalue hdef]
    exact hsub _ (List.mem_cons_of_mem _ hd)

theorem headerNames_nodup : headerNames.Nodup := by decide +kernel

theorem ifValue_of_notMem {defs : List Def} {name : String} (h : name ∉ defs.map Def.name) : ifValue defs name = 0 := by
  have hnone : defs.find? (·.name = name) = none := by
    rw [List.find?_eq_none]
    intro d hd heq
    exact h (List.mem_map.2 ⟨d, hd, of_decide_eq_true heq⟩)
  rw [ifValue, hnone]

theorem ifValue_of_mem {defs : List Def} {d : Def} {n : Int} (hnodup : (defs.map Def.name).Nodup) (hd : d ∈ defs)
    (hn : d.value = .int n) : ifValue defs d.name = n := by
  have hfind : defs.find? (·.name = d.name) = some d := by
    induction defs with
    | nil => cases hd
    | cons e defs ih =>
      rw [List.map_cons, List.nodup_cons] at hnodup
      rcases List.mem_cons.1 hd with rfl | hd
      · rw [List.find?_cons_of_pos (by simp)]
      · have hne : e.name ≠ d.name := fun heq => hnodup.1 (by rw [heq]; exact List.mem_map_of_mem hd)
        rw [List.find?_cons_of_neg (by simpa using hne), ih hnodup.2 hd]
  obtain ⟨name, value⟩ := d
  obtain rfl : value = .int n := hn
  rw [ifValue, hfind]

end Vedruino.Config
