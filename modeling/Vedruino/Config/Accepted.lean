import Mathlib.Logic.Relation
import Vedruino.Config.Header

/-!
# The configurations with a header

`config.py` reads every value it needs and then looks at the dependencies of the modules. Either all of that is in order and the header is the one that the configuration says, or the error is about something that is not in order.
-/

namespace Vedruino.Config

/-! ### Computations that succeed under a condition -/

/-- The computation gives the value where the condition holds, and otherwise an error of the kind. -/
structure Settles {ε α : Type} (x : Except ε α) (P : Prop) (a : α) (B : ε → Prop) : Prop where
  ok : P → x = .ok a
  error : ¬ P → ∃ e, x = .error e ∧ B e

namespace Settles

variable {ε α β : Type} {B : ε → Prop} {P Q : Prop}

theorem pure (a : α) : Settles (.ok a) True a B where
  ok _ := rfl
  error h := absurd trivial h

theorem congr {x : Except ε α} {a : α} (h : Settles x P a B) (hPQ : P ↔ Q) : Settles x Q a B where
  ok hQ := h.ok (hPQ.2 hQ)
  error hQ := h.error fun hP => hQ (hPQ.1 hP)

theorem bind {x : Except ε α} {f : α → Except ε β} {a : α} {b : β} (h : Settles x P a B) (hf : P → Settles (f a) Q b B) :
    Settles (x >>= f) (P ∧ Q) b B where
  ok hPQ := by
    rw [h.ok hPQ.1]
    exact (hf hPQ.1).ok hPQ.2
  error hPQ := by
    by_cases hP : P
    · rw [h.ok hP]
      exact (hf hP).error fun hQ => hPQ ⟨hP, hQ⟩
    · obtain ⟨e, hx, he⟩ := h.error hP
      rw [hx]
      exact ⟨e, rfl, he⟩

theorem mapM {f : α → Except ε β} {g : α → β} {P : α → Prop} {xs : List α} (h : ∀ x ∈ xs, Settles (f x) (P x) (g x) B) :
    Settles (xs.mapM f) (∀ x ∈ xs, P x) (xs.map g) B := by
  induction xs with
  | nil => exact (pure []).congr (iff_of_true trivial (List.forall_mem_nil _))
  | cons x xs ih =>
    obtain ⟨hx, hxs⟩ := List.forall_mem_cons.1 h
    rw [List.mapM_cons]
    apply (hx.bind (Q := (∀ x ∈ xs, P x) ∧ True) fun _ => (ih hxs).bind fun _ => pure (g x :: xs.map g)).congr
    rw [and_true, List.forall_mem_cons]

theorem forM {f : α → Except ε PUnit} {P : α → Prop} {xs : List α} (h : ∀ x ∈ xs, Settles (f x) (P x) ⟨⟩ B) :
    Settles (xs.forM f) (∀ x ∈ xs, P x) ⟨⟩ B := by
  induction xs with
  | nil => exact (pure PUnit.unit).congr (iff_of_true trivial (List.forall_mem_nil _))
  | cons x xs ih =>
    obtain ⟨hx, hxs⟩ := List.forall_mem_cons.1 h
    show Settles (f x >>= fun _ => xs.forM f) _ _ _
    apply (hx.bind fun _ => ih hxs).congr
    rw [List.forall_mem_cons]

end Settles

/-! ### What the configuration says -/

def Ini.entry? (ini : Ini) (section_ key : String) : Option Entry := (ini section_).bind fun keys => keys key

def Entry.value? : Entry → Option String
  | .value text => some text
  | .interpolationError => none

def Ini.value? (ini : Ini) (section_ key : String) : Option String := (ini.entry? section_ key).bind Entry.value?

def KeyType.value? (int : String → Option Int) : KeyType → String → Option Value
  | .int, text => (int text).map .int
  | .str, text => some (.str text)
  | .bool, text => if text = "true" then some (.int 1) else if text = "false" then some (.int 0) else none

def Ini.typed? (int : String → Option Int) (ini : Ini) (section_ key : String) (type : KeyType) : Option Value :=
  (ini.value? section_ key).bind fun text => type.value? int text

def Enabled (ini : Ini) (module : String) : Prop := ini.value? module "enabled" = some "true"

instance (ini : Ini) : DecidablePred (Enabled ini) := fun _ => inferInstanceAs (Decidable (_ = _))

/-- The values that `config.py` reads. The switch of a module may be any text. -/
inductive Wanted (ini : Ini) : String → String → KeyType → Prop
  | log {k : String × KeyType} (hk : k ∈ logKeys) : Wanted ini "log" k.1 k.2
  | misc {k : String × KeyType} (hk : k ∈ miscKeys) : Wanted ini "misc" k.1 k.2
  | switch {m : String × List (String × KeyType)} (hm : m ∈ modules) (hsection : (ini m.1).isSome = true) :
    Wanted ini m.1 "enabled" .str
  | key {m : String × List (String × KeyType)} {k : String × KeyType} (hm : m ∈ modules) (henabled : Enabled ini m.1) (hk : k ∈ m.2) :
    Wanted ini m.1 k.1 k.2

def Requires (module dep : String) : Prop := ∃ deps, (module, deps) ∈ libDeps ∧ dep ∈ deps

structure Accepted (int : String → Option Int) (ini : Ini) : Prop where
  typed : ∀ section_ key type, Wanted ini section_ key type → (ini.typed? int section_ key type).isSome = true
  closed : ∀ module dep, Requires module dep → Enabled ini module → Enabled ini dep

/-- What an error says is so. -/
def Err.Blames (int : String → Option Int) (ini : Ini) : Err → Prop
  | .notFound section_ key => (∃ type, Wanted ini section_ key type) ∧ ini.entry? section_ key = none
  | .interpolationError section_ key =>
    (∃ type, Wanted ini section_ key type) ∧ ini.entry? section_ key = some .interpolationError
  | .expectedInt section_ key => Wanted ini section_ key .int ∧ ∃ text, ini.value? section_ key = some text ∧ int text = none
  | .keyError text => ∃ section_ key, Wanted ini section_ key .bool ∧ ini.value? section_ key = some text ∧ text ≠ "true" ∧ text ≠ "false"
  | .required dep module => Requires module dep ∧ Enabled ini module ∧ ¬ Enabled ini dep

/-- The macro of a key. -/
def keyDef (int : String → Option Int) (ini : Ini) (section_ : String) (k : String × KeyType) : Def :=
  ⟨macroName section_ k.1, (ini.typed? int section_ k.1 k.2).getD k.2.default⟩

/-- The macros of a module. -/
def moduleDefs (int : String → Option Int) (ini : Ini) (m : String × List (String × KeyType)) : List Def :=
  ⟨macroName m.1 "enabled", .int (if Enabled ini m.1 then 1 else 0)⟩ ::
    m.2.map fun k => if Enabled ini m.1 then keyDef int ini m.1 k else ⟨macroName m.1 k.1, k.2.default⟩

def header (int : String → Option Int) (ini : Ini) : List Def :=
  logKeys.map (keyDef int ini "log") ++ miscKeys.map (keyDef int ini "misc") ++ (modules.map (moduleDefs int ini)).flatten

section

variable {int : String → Option Int} {ini : Ini} {section_ key : String} {type : KeyType}

/-- The value, or the error that says what is there instead of one. -/
theorem getParamOrFail_eq (ini : Ini) (section_ key : String) : getParamOrFail ini section_ key =
    match ini.entry? section_ key with
    | none => .error (.notFound section_ key)
    | some .interpolationError => .error (.interpolationError section_ key)
    | some (.value text) => .ok text := by
  rw [getParamOrFail, Ini.entry?]
  cases ini section_ <;> rfl

theorem getParamOrFail_of_value? {text : String} (h : ini.value? section_ key = some text) :
    getParamOrFail ini section_ key = .ok text := by
  obtain ⟨entry, hentry, hvalue⟩ := Option.bind_eq_some_iff.1 h
  rw [getParamOrFail_eq, hentry]
  cases entry with
  | value text' => exact congrArg Except.ok (Option.some.inj hvalue)
  | interpolationError => cases hvalue

theorem error_of_value?_none (h : ini.value? section_ key = none) (hwanted : Wanted ini section_ key type) :
    ∃ e, getParamOrFail ini section_ key = .error e ∧ Err.Blames int ini e := by
  rw [getParamOrFail_eq]
  cases hentry : ini.entry? section_ key with
  | none => exact ⟨_, rfl, ⟨type, hwanted⟩, hentry⟩
  | some entry =>
    cases entry with
    | interpolationError => exact ⟨_, rfl, ⟨type, hwanted⟩, hentry⟩
    | value text =>
      rw [Ini.value?, hentry] at h
      cases h

theorem settles_addDef (hwanted : Wanted ini section_ key type) : Settles (addDef int ini section_ key type)
    ((ini.typed? int section_ key type).isSome = true)
    ⟨macroName section_ key, (ini.typed? int section_ key type).getD type.default⟩ (Err.Blames int ini) := by
  rw [addDef, Ini.typed?]
  cases hvalue : ini.value? section_ key with
  | none =>
    obtain ⟨e, hget, hblames⟩ := @error_of_value?_none int _ _ _ _ hvalue hwanted
    rw [hget]
    exact ⟨fun h => absurd h Bool.false_ne_true, fun _ => ⟨e, rfl, hblames⟩⟩
  | some text =>
    rw [getParamOrFail_of_value? hvalue, Option.bind_some]
    cases type with
    | int =>
      dsimp only [bind, Except.bind, KeyType.value?]
      cases hint : int text with
      | none => exact ⟨fun h => absurd h Bool.false_ne_true, fun _ => ⟨_, rfl, hwanted, text, hvalue, hint⟩⟩
      | some n => exact ⟨fun _ => rfl, fun h => absurd rfl h⟩
    | str => exact ⟨fun _ => rfl, fun h => absurd rfl h⟩
    | bool =>
      show Settles (if text = "true" then Except.ok (Def.mk (macroName section_ key) (.int 1))
        else if text = "false" then .ok ⟨macroName section_ key, .int 0⟩ else .error (Err.keyError text)) _ _ _
      rw [KeyType.value?]
      by_cases htrue : text = "true"
      · rw [if_pos htrue, if_pos htrue]
        exact ⟨fun _ => rfl, fun h => absurd rfl h⟩
      · by_cases hfalse : text = "false"
        · rw [if_neg htrue, if_pos hfalse, if_neg htrue, if_pos hfalse]
          exact ⟨fun _ => rfl, fun h => absurd rfl h⟩
        · rw [if_neg htrue, if_neg hfalse, if_neg htrue, if_neg hfalse]
          exact ⟨fun h => absurd h Bool.false_ne_true, fun _ => ⟨_, rfl, section_, key, hwanted, hvalue, htrue, hfalse⟩⟩

/-- The switch of a module is in its section. -/
def Switched (ini : Ini) (module : String) : Prop := (ini module).isSome = true → (ini.value? module "enabled").isSome = true

instance (ini : Ini) : DecidablePred (Switched ini) := fun _ => inferInstanceAs (Decidable (_ → _))

theorem settles_isModuleEnabled {m : String × List (String × KeyType)} (hm : m ∈ modules) :
    Settles (isModuleEnabled ini m.1) (Switched ini m.1) (decide (Enabled ini m.1)) (Err.Blames int ini) := by
  rw [isModuleEnabled, Switched]
  by_cases hsection : (ini m.1).isSome = true
  · rw [if_neg (by simpa using Option.isSome_iff_ne_none.1 hsection)]
    cases hvalue : ini.value? m.1 "enabled" with
    | none =>
      obtain ⟨e, hget, hblames⟩ := @error_of_value?_none int _ _ _ _ hvalue (.switch hm hsection)
      rw [hget]
      exact ⟨fun h => absurd (h hsection) Bool.false_ne_true, fun _ => ⟨e, rfl, hblames⟩⟩
    | some text =>
      rw [getParamOrFail_of_value? hvalue]
      refine ⟨fun _ => ?_, fun h => absurd (fun _ => rfl) h⟩
      show Except.ok (decide (text = "true")) = _
      simp only [Enabled, hvalue, Option.some.injEq]
  · have hnone : ini m.1 = none := by simpa using hsection
    refine ⟨fun _ => ?_, fun h => absurd (fun hsome => absurd hsome hsection) h⟩
    rw [if_pos (by rw [hnone]; rfl)]
    simp [Enabled, Ini.value?, Ini.entry?, hnone]

private theorem settles_addKey {m : String × List (String × KeyType)} (hm : m ∈ modules) {k : String × KeyType} (hk : k ∈ m.2) :
    Settles (addKey int ini m.1 (decide (Enabled ini m.1)) k)
      (Enabled ini m.1 → (ini.typed? int m.1 k.1 k.2).isSome = true)
      (if Enabled ini m.1 then keyDef int ini m.1 k else ⟨macroName m.1 k.1, k.2.default⟩) (Err.Blames int ini) := by
  rw [addKey]
  by_cases henabled : Enabled ini m.1
  · rw [if_pos (decide_eq_true henabled), if_pos henabled]
    exact (settles_addDef (.key hm henabled hk)).congr (imp_iff_right henabled).symm
  · rw [if_neg (by simpa using henabled), if_neg henabled]
    exact (Settles.pure _).congr (iff_of_true trivial fun h => absurd h henabled)

private theorem settles_addModule {m : String × List (String × KeyType)} (hm : m ∈ modules) : Settles (addModule int ini m)
    (Switched ini m.1 ∧ ∀ k ∈ m.2, Enabled ini m.1 → (ini.typed? int m.1 k.1 k.2).isSome = true)
    (moduleDefs int ini m) (Err.Blames int ini) := by
  have hfirst : Settles (addModuleStart int ini m.1 (decide (Enabled ini m.1))) True
      ⟨macroName m.1 "enabled", .int (if Enabled ini m.1 then 1 else 0)⟩ (Err.Blames int ini) := by
    rw [addModuleStart]
    refine ⟨fun _ => ?_, fun h => absurd trivial h⟩
    by_cases henabled : Enabled ini m.1
    · rw [if_pos (decide_eq_true henabled), if_pos henabled, addDef, getParamOrFail_of_value? henabled]
      rfl
    · rw [if_neg (by simpa using henabled), if_neg henabled]
  rw [addModule]
  apply ((settles_isModuleEnabled hm).bind fun _ => hfirst.bind fun _ =>
    (Settles.mapM fun k hk => settles_addKey hm hk).bind fun _ => .pure (moduleDefs int ini m)).congr
  rw [true_and, and_true]

/-- Every module of `lib_deps` is one that has been read before. -/
theorem mem_modules_of_requires {module dep : String} (h : Requires module dep) :
    module ∈ modules.map Prod.fst ∧ dep ∈ modules.map Prod.fst := by
  have hall : ∀ d ∈ libDeps, d.1 ∈ modules.map Prod.fst ∧ ∀ e ∈ d.2, e ∈ modules.map Prod.fst := by decide
  obtain ⟨deps, hdeps, hdep⟩ := h
  exact ⟨(hall _ hdeps).1, (hall _ hdeps).2 dep hdep⟩

private theorem isModuleEnabled_of_switched {module : String} (hmodule : module ∈ modules.map Prod.fst)
    (hswitched : ∀ m ∈ modules, Switched ini m.1) : isModuleEnabled ini module = .ok (decide (Enabled ini module)) := by
  obtain ⟨m, hm, rfl⟩ := List.mem_map.1 hmodule
  exact (@settles_isModuleEnabled (fun _ => none) ini m hm).ok (hswitched m hm)

private theorem settles_checkDeps (hswitched : ∀ m ∈ modules, Switched ini m.1) : Settles (checkDeps ini libDeps)
    (∀ d ∈ libDeps, ∀ e ∈ d.2, Enabled ini d.1 → Enabled ini e) ⟨⟩ (Err.Blames int ini) := by
  apply Settles.forM
  intro d hd
  by_cases hdeps : d.2 = []
  · -- no module that requires nothing is listed
    revert hd hdeps
    have hall : ∀ d ∈ libDeps, d.2 ≠ [] := by decide
    exact fun hd hdeps => absurd hdeps (hall d hd)
  · obtain ⟨e₀, he₀⟩ := List.exists_mem_of_ne_nil _ hdeps
    rw [isModuleEnabled_of_switched (mem_modules_of_requires ⟨d.2, hd, he₀⟩).1 hswitched]
    by_cases henabled : Enabled ini d.1
    · show Settles (if decide (Enabled ini d.1) = true then _ else _) _ _ _
      rw [if_pos (decide_eq_true henabled)]
      apply Settles.forM
      intro e he
      have hrequires : Requires d.1 e := ⟨d.2, hd, he⟩
      rw [isModuleEnabled_of_switched (mem_modules_of_requires hrequires).2 hswitched]
      show Settles (if decide (Enabled ini e) = true then Except.ok () else .error (Err.required e d.1)) _ _ _
      by_cases hdep : Enabled ini e
      · rw [if_pos (decide_eq_true hdep)]
        exact (Settles.pure _).congr (iff_of_true trivial fun _ => hdep)
      · rw [if_neg (by simpa using hdep)]
        exact ⟨fun h => absurd (h henabled) hdep, fun _ => ⟨_, rfl, hrequires, henabled, hdep⟩⟩
    · show Settles (if decide (Enabled ini d.1) = true then _ else _) _ _ _
      rw [if_neg (by simpa using henabled)]
      exact (Settles.pure _).congr (iff_of_true trivial fun _ _ h => absurd h henabled)

private theorem typed?_str (ini : Ini) (section_ key : String) :
    (ini.typed? int section_ key .str).isSome = (ini.value? section_ key).isSome := by
  rw [Ini.typed?]
  cases ini.value? section_ key <;> rfl

theorem accepted_iff : Accepted int ini ↔
    (∀ k ∈ logKeys, (ini.typed? int "log" k.1 k.2).isSome = true) ∧
    (∀ k ∈ miscKeys, (ini.typed? int "misc" k.1 k.2).isSome = true) ∧
    (∀ m ∈ modules, Switched ini m.1 ∧ ∀ k ∈ m.2, Enabled ini m.1 → (ini.typed? int m.1 k.1 k.2).isSome = true) ∧
    ∀ d ∈ libDeps, ∀ e ∈ d.2, Enabled ini d.1 → Enabled ini e := by
  constructor
  · intro h
    refine ⟨fun k hk => h.typed _ _ _ (.log hk), fun k hk => h.typed _ _ _ (.misc hk), fun m hm => ⟨fun hsection => ?_, fun k hk hen =>
      h.typed _ _ _ (.key hm hen hk)⟩, fun d hd e he => h.closed _ _ ⟨d.2, hd, he⟩⟩
    rw [← @typed?_str int]
    exact h.typed _ _ _ (.switch hm hsection)
  · intro h
    obtain ⟨hlog, hmisc, hmods, hdeps⟩ := h
    refine ⟨fun section_ key type hwanted => ?_, fun module dep hrequires henabled => ?_⟩
    · cases hwanted with
      | log hk => exact hlog _ hk
      | misc hk => exact hmisc _ hk
      | switch hm hsection =>
        rw [typed?_str]
        exact (hmods _ hm).1 hsection
      | key hm henabled hk => exact (hmods _ hm).2 _ hk henabled
    · obtain ⟨deps, hdeps', hdep⟩ := hrequires
      exact hdeps _ hdeps' dep hdep henabled

instance : Decidable (Accepted int ini) := decidable_of_iff _ accepted_iff.symm

theorem settles_genHeader (int : String → Option Int) (ini : Ini) :
    Settles (genHeader int ini) (Accepted int ini) (header int ini) (Err.Blames int ini) := by
  have hlog := Settles.mapM fun k hk => @settles_addDef int ini _ _ _ (.log (k := k) hk)
  have hmisc := Settles.mapM fun k hk => @settles_addDef int ini _ _ _ (.misc (k := k) hk)
  have hmods := Settles.mapM fun m hm => @settles_addModule int ini m hm
  rw [genHeader]
  apply (hlog.bind fun _ => hmisc.bind fun _ => hmods.bind fun h => (settles_checkDeps fun m hm => (h m hm).1).bind fun _ =>
    .pure (header int ini)).congr
  rw [and_true]
  exact accepted_iff.symm

theorem genHeader_eq_ok_iff {defs : List Def} : genHeader int ini = .ok defs ↔ Accepted int ini ∧ defs = header int ini := by
  have hsettles := settles_genHeader int ini
  constructor
  · intro h
    by_cases haccepted : Accepted int ini
    · exact ⟨haccepted, Except.ok.inj (h.symm.trans (hsettles.ok haccepted))⟩
    · obtain ⟨e, he, -⟩ := hsettles.error haccepted
      cases h.symm.trans he
  · intro h
    obtain ⟨haccepted, rfl⟩ := h
    exact hsettles.ok haccepted

/-- What `#if` sees of the switch of a module. -/
theorem ifValue_enabled {defs : List Def} (h : genHeader int ini = .ok defs) {module : String} (hmodule : module ∈ modules.map Prod.fst) :
    ifValue defs (macroName module "enabled") = if Enabled ini module then 1 else 0 := by
  obtain ⟨m, hm, rfl⟩ := List.mem_map.1 hmodule
  have hnodup : (defs.map Def.name).Nodup := by
    rw [genHeader_names h]
    exact headerNames_nodup
  obtain ⟨-, rfl⟩ := genHeader_eq_ok_iff.1 h
  exact ifValue_of_mem (d := ⟨_, .int (if Enabled ini m.1 then 1 else 0)⟩) hnodup
    (List.mem_append_right _ (List.mem_flatten.2 ⟨moduleDefs int ini m, List.mem_map_of_mem hm, List.mem_cons_self⟩)) rfl

theorem Accepted.enabled_of_requires (h : Accepted int ini) {module dep : String} (hrequires : Relation.TransGen Requires module dep)
    (henabled : Enabled ini module) : Enabled ini dep := by
  induction hrequires with
  | single hstep => exact h.closed _ _ hstep henabled
  | tail _ hstep ih => exact h.closed _ _ hstep ih

private theorem mem_modules_of_transGen {module dep : String} (h : Relation.TransGen Requires module dep) :
    module ∈ modules.map Prod.fst ∧ dep ∈ modules.map Prod.fst := by
  induction h with
  | single hstep => exact mem_modules_of_requires hstep
  | tail _ hstep ih => exact ⟨ih.1, (mem_modules_of_requires hstep).2⟩

variable (int ini) in
/-- **`config.py` writes a header exactly where each value that it reads can be read and each module enabled has those it requires: the one that the configuration says. Any other end blames a value or a module that is not in order. Where `#if` sees a module it sees all that the module needs.** -/
theorem genHeader_accepted : (∀ defs, genHeader int ini = .ok defs ↔ Accepted int ini ∧ defs = header int ini) ∧
    (∀ e, genHeader int ini = .error e → e.Blames int ini) ∧
    ∀ defs module dep, genHeader int ini = .ok defs → Relation.TransGen Requires module dep →
      ifValue defs (macroName module "enabled") = 1 → ifValue defs (macroName dep "enabled") = 1 := by
  refine ⟨fun defs => genHeader_eq_ok_iff, fun e he => ?_, fun defs module dep hgen hrequires hmodule => ?_⟩
  · have hsettles := settles_genHeader int ini
    have hnot : ¬ Accepted int ini := fun haccepted => nomatch he.symm.trans (hsettles.ok haccepted)
    obtain ⟨e', he', hblames⟩ := hsettles.error hnot
    cases he.symm.trans he'
    exact hblames
  · obtain ⟨hm, hd⟩ := mem_modules_of_transGen hrequires
    have henabled : Enabled ini module := by
      by_contra hnot
      rw [ifValue_enabled hgen hm, if_neg hnot] at hmodule
      cases hmodule
    rw [ifValue_enabled hgen hd, if_pos ((genHeader_eq_ok_iff.1 hgen).1.enabled_of_requires hrequires henabled)]

end

/-- The number 3 alone. -/
def readThree (text : String) : Option Int := if text = "3" then some 3 else none

/-- A board with netlog over a wireless network. -/
def netlogIni : Ini := fun section_ =>
  if section_ = "log" ∨ section_ = "misc" then
    some fun key => some (.value (if key = "lib_level" ∨ key = "app_level" ∨ key = "startup_delay" then "3" else "true"))
  else if section_ = "lib.netlog" ∨ section_ = "lib.ip" ∨ section_ = "lib.wifi" then
    some fun key => some (.value (if key = "enabled" then "true" else "3"))
  else none

theorem genHeader_accepted_netlog : ∃ defs, genHeader readThree netlogIni = .ok defs ∧
    ifValue defs (macroName "lib.wifi" "enabled") = 1 := by
  obtain ⟨hok, -, hclosed⟩ := genHeader_accepted readThree netlogIni
  have hgen := (hok _).2 ⟨by decide +kernel, rfl⟩
  have hrequires : Relation.TransGen Requires "lib.netlog" "lib.wifi" :=
    .tail (.single ⟨_, List.mem_cons_of_mem _ List.mem_cons_self, List.mem_cons_self⟩) ⟨_, List.mem_cons_self, List.mem_cons_self⟩
  exact ⟨_, hgen, hclosed _ _ _ hgen hrequires (by decide +kernel)⟩

-- a password such as 50%off
example : genHeader readThree (fun section_ => (netlogIni section_).map fun keys key =>
    if key = "password" then some .interpolationError else keys key) = .error (.interpolationError "lib.wifi" "password") := by
  decide +kernel

end Vedruino.Config
