import Mathlib.Data.List.Nodup
import Vedruino.Config.Accepted
import Vedruino.Config.Escape
import Vedruino.Lib.CMacros

/-!
# The text of the header

`config.py` writes the definitions under comments with the names of their sections. The compiler reads every file of the firmware with them, after it has spliced lines and removed comments.
-/

namespace Vedruino.Config

open CLiteral (utf8 literal)
open CMacros

def comment (text : List Char) : List Char := '/' :: '/' :: ' ' :: text ++ ['\n']

/-- The lines that `conf_h` begins with. -/
def preamble : List Char :=
  comment "Файл сгенерирован автоматически с помощью tools/conf.py".toList ++
    (comment "Изменять нужно ./config.ini".toList ++ ("#pragma once".toList ++ ['\n']))

/-- `add_section_comm`. -/
def addSectionComm (section_ : String) : List Char :=
  ['\n'] ++ (comment ('[' :: section_.toList ++ [']']) ++ ['\n'])

/-- What `add_def` adds to `conf_h`. -/
def Def.line (d : Def) : List Char := "#define ".toList ++ (d.name.toList ++ ' ' :: d.value.text) ++ ['\n']

def sectionText (section_ : String) (defs : List Def) : List Char := addSectionComm section_ ++ defs.flatMap Def.line

/-- The text written to `src/conf.h`. -/
def genConf (int : String → Option Int) (ini : Ini) : Except Err (List Char) := do
  let log ← logKeys.mapM fun k => addDef int ini "log" k.1 k.2
  let misc ← miscKeys.mapM fun k => addDef int ini "misc" k.1 k.2
  let mods ← modules.mapM (addModule int ini)
  checkDeps ini libDeps
  .ok (preamble ++ (sectionText "log" log ++ (sectionText "misc" misc ++
    ((modules.map Prod.fst).zip mods).flatMap fun m => sectionText m.1 m.2)))

/-- The macro as the compiler reads it. -/
def Def.macro_ (d : Def) : List Char × List Char := (d.name.toList, d.value.text)

/-! ### The lines -/

theorem lines_comment {text : List Char} (hline : '\n' ∉ text) (hlast : text.getLast? ≠ some '\\') : Lines (comment text) [] := by
  apply @Lines.comment (' ' :: text)
  · rw [List.mem_cons, not_or]
    exact ⟨by decide, hline⟩
  · cases text with
    | nil => decide
    | cons c cs => rwa [List.getLast?_cons_cons]

private theorem lines_preamble : Lines preamble [] := by
  have hpragma : Lines ("#pragma once".toList ++ ['\n']) [] := by
    refine @Lines.of_line _ "#pragma once".toList none (by decide) (by decide) (fun rest => ?_) (by decide) rfl
    have hplain : ("#pragma once".toList.all fun c => decide (Plain c)) = true := by decide
    rw [uncomment_plain fun c hc => of_decide_eq_true (List.all_eq_true.1 hplain c hc)]
    show ((uncomment .code rest).map ('\n' :: ·)).map _ = _
    rw [Option.map_map]
    rfl
  exact (lines_comment (by decide +kernel) (by decide +kernel)).append ((lines_comment (by decide +kernel) (by decide +kernel)).append hpragma)

private theorem lines_addSectionComm {section_ : String} (hline : '\n' ∉ section_.toList) : Lines (addSectionComm section_) [] := by
  refine Lines.empty.append ((lines_comment ?_ ?_).append .empty)
  · rw [List.cons_append, List.mem_cons, List.mem_append, not_or, not_or, List.mem_singleton]
    exact ⟨by decide, hline, by decide⟩
  · rw [List.getLast?_concat]
    decide

/-- The characters of a number. -/
theorem digits_of_mem_text {n : Int} {c : Char} (hc : c ∈ (Value.int n).text) : c.isDigit = true ∨ c = '-' := by
  have hdigits : ∀ m : Nat, c ∈ (Nat.repr m).toList → c.isDigit = true := by
    intro m hm
    rw [Nat.repr, String.toList_ofList] at hm
    exact Nat.isDigit_of_mem_toDigits (by decide) (by decide) hm
  cases n with
  | ofNat m => exact .inl (hdigits m hc)
  | negSucc m =>
    have hmem : c ∈ ("-" ++ Nat.repr (m + 1)).toList := hc
    rw [String.toList_append, List.mem_append] at hmem
    rcases hmem with hminus | hdigit
    · exact .inr (List.mem_singleton.1 hminus)
    · exact .inl (hdigits _ hdigit)

private theorem text_int_ne_nil (n : Int) : (Value.int n).text ≠ [] := by
  have hne : ∀ m : Nat, (Nat.repr m).toList ≠ [] := by
    intro m
    rw [Nat.repr, String.toList_ofList]
    exact Nat.toDigits_ne_nil
  cases n with
  | ofNat m => exact hne m
  | negSucc m =>
    show ("-" ++ Nat.repr (m + 1)).toList ≠ []
    rw [String.toList_append]
    exact List.append_ne_nil_of_right_ne_nil _ (hne _)

private theorem body_int (n : Int) : Body (Value.int n).text := by
  have hdash : Plain '-' ∧ '-' ≠ '\n' ∧ '-' ≠ '\\' ∧ isBlank '-' = false := by decide
  have hchar : ∀ c ∈ (Value.int n).text, Plain c ∧ c ≠ '\n' ∧ c ≠ '\\' ∧ isBlank c = false := by
    intro c hc
    rcases digits_of_mem_text hc with hdigit | rfl
    · have hname : isNameChar c = true := by
        rw [isNameChar, Char.isAlphanum, hdigit, Bool.or_true, Bool.true_or]
      refine ⟨plain_of_isNameChar hname, ?_, ?_, not_blank_of_isNameChar hname⟩
      · rintro rfl
        cases hdigit
      · rintro rfl
        cases hdigit
    · exact hdash
  obtain ⟨c, cs, heq⟩ := List.exists_cons_of_ne_nil (text_int_ne_nil n)
  refine .plain (fun c hc => ⟨(hchar c hc).1, (hchar c hc).2.1, (hchar c hc).2.2.1⟩) ⟨c, ?_, (hchar c ?_).2.2.2⟩
  · rw [heq]
    rfl
  · rw [heq]
    exact List.mem_cons_self

/-- A string is a literal of C. -/
def Value.Literal : Value → Prop
  | .int _ => True
  | .str s => (literal (Value.str s).text).isSome = true

private theorem body_text {v : Value} (h : v.Literal) : Body v.text := by
  cases v with
  | int n => exact body_int n
  | str s =>
    obtain ⟨bs, hbs⟩ := Option.isSome_iff_exists.1 h
    rw [Value.text, CLiteral.literal_eq_some] at hbs
    obtain ⟨l, hl, hliteral⟩ := literal_of_chars hbs
    rw [List.append_nil] at hl
    rw [Value.text, hl]
    exact .literal hliteral

private theorem lines_line {d : Def} (hname : IsName d.name.toList) (hvalue : d.value.Literal) : Lines d.line [d.macro_] :=
  .define hname (body_text hvalue)

theorem lines_sectionText {section_ : String} (hline : '\n' ∉ section_.toList) {defs : List Def}
    (h : ∀ d ∈ defs, IsName d.name.toList ∧ d.value.Literal) : Lines (sectionText section_ defs) (defs.map Def.macro_) := by
  have hdefs : Lines (defs.flatMap Def.line) (defs.flatMap fun d => [d.macro_]) :=
    .flatMap fun d hd => lines_line (h d hd).1 (h d hd).2
  rw [← List.map_eq_flatMap] at hdefs
  exact (lines_addSectionComm hline).append hdefs

private theorem isName_of_mem {name : String} (h : name ∈ headerNames) : IsName name.toList := by
  have hall : headerNames.all (fun name => decide (name.toList ≠ []) && name.toList.all isNameChar) = true := by decide +kernel
  have hname := List.all_eq_true.1 hall name h
  rw [Bool.and_eq_true, decide_eq_true_eq, List.all_eq_true] at hname
  exact hname

private theorem lines_modules {names : List String} {mods : List (List Def)} (hlen : mods.length ≤ names.length)
    (hnames : ∀ name ∈ names, '\n' ∉ name.toList) (h : ∀ d ∈ mods.flatten, IsName d.name.toList ∧ d.value.Literal) :
    Lines ((names.zip mods).flatMap fun m => sectionText m.1 m.2) (mods.flatten.map Def.macro_) := by
  have hlines : Lines ((names.zip mods).flatMap fun m => sectionText m.1 m.2) ((names.zip mods).flatMap fun m => m.2.map Def.macro_) := by
    apply Lines.flatMap
    intro m hm
    obtain ⟨hname, hdefs⟩ := List.of_mem_zip hm
    exact lines_sectionText (hnames _ hname) fun d hd => h d (List.mem_flatten.2 ⟨m.2, hdefs, hd⟩)
  have hmacros : ((names.zip mods).flatMap fun m => m.2.map Def.macro_) = mods.flatten.map Def.macro_ := by
    rw [List.map_flatten, ← List.map_snd_zip hlen, List.map_map]
    rw [List.map_snd_zip hlen]
    rfl
  exact hmacros ▸ hlines

/-- **Where each string of the header is a literal of C, the compiler reads from `src/conf.h` exactly the macros of the header, in their order and no name twice, and a string denotes the configured value exactly where that has no backslash.** -/
theorem genConf_macros {int : String → Option Int} {ini : Ini} {defs : List Def} (hgen : genHeader int ini = .ok defs)
    (hliteral : ∀ d ∈ defs, d.value.Literal) : ∃ text, genConf int ini = .ok text ∧ macros text = some (defs.map Def.macro_) ∧
      (defs.map fun d => d.macro_.1).Nodup ∧
      ∀ d ∈ defs, ∀ s, d.value = .str s → (literal d.macro_.2 = some (utf8 s.toList) ↔ '\\' ∉ s.toList) := by
  have hnames := genHeader_names hgen
  have hgood : ∀ d ∈ defs, IsName d.name.toList ∧ d.value.Literal := fun d hd =>
    ⟨isName_of_mem (hnames ▸ List.mem_map_of_mem hd), hliteral d hd⟩
  have hnodup : (defs.map fun d => d.macro_.1).Nodup := by
    show (defs.map (String.toList ∘ Def.name)).Nodup
    rw [← List.map_map, hnames]
    exact List.Nodup.map (fun _ _ h => String.toList_inj.1 h) headerNames_nodup
  simp only [genHeader, bind_eq_ok] at hgen
  obtain ⟨log, hlog, misc, hmisc, mods, hmods, _, hdeps, heq⟩ := hgen
  cases heq
  have hconf : genConf int ini = .ok (preamble ++ (sectionText "log" log ++ (sectionText "misc" misc ++
      ((modules.map Prod.fst).zip mods).flatMap fun m => sectionText m.1 m.2))) := by
    simp only [genConf, bind_eq_ok]
    exact ⟨log, hlog, misc, hmisc, mods, hmods, _, hdeps, rfl⟩
  refine ⟨_, hconf, ?_, hnodup, ?_⟩
  · have hlen : mods.length = (modules.map Prod.fst).length := by
      rw [List.length_map, (forall₂_of_mapM hmods).length_eq]
    have hlines : Lines _ (log.map Def.macro_ ++ (misc.map Def.macro_ ++ mods.flatten.map Def.macro_)) :=
      (@lines_sectionText "log" (by decide) _ fun d hd => hgood d (by simp [hd])).append
        ((@lines_sectionText "misc" (by decide) _ fun d hd => hgood d (by simp [hd])).append
          (lines_modules (Nat.le_of_eq hlen) (by decide) fun d hd => hgood d (List.mem_append_right _ hd)))
    have hread := (lines_preamble.append hlines) []
    rw [List.append_nil] at hread
    rw [hread, List.map_append, List.map_append, List.append_assoc]
    exact congrArg some (List.append_nil _)
  · intro d _ s hs
    rw [Def.macro_, hs]
    exact literal_text_iff s

theorem genConf_macros_netlog : ∃ text, genConf readThree netlogIni = .ok text ∧
    macros text = some ((header readThree netlogIni).map Def.macro_) := by
  have hgen := genHeader_eq_ok_iff.2 ⟨(by decide +kernel : Accepted readThree netlogIni), rfl⟩
  have hback : ((header readThree netlogIni).all fun d => match d.value with
      | .int _ => true
      | .str s => decide ('\\' ∉ s.toList)) = true := by decide +kernel
  have hliteral : ∀ d ∈ header readThree netlogIni, d.value.Literal := by
    intro d hd
    have hvalue := List.all_eq_true.1 hback d hd
    cases hd' : d.value with
    | int n => trivial
    | str s =>
      rw [hd'] at hvalue
      exact Option.isSome_of_eq_some ((literal_text_iff s).2 (of_decide_eq_true hvalue))
  obtain ⟨text, hconf, hread, -⟩ := genConf_macros hgen hliteral
  exact ⟨text, hconf, hread⟩

end Vedruino.Config
