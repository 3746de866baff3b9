import Reckon.CommandLine
import Reckon.Proofs.Script.Lines
import Reckon.Proofs.Script.Statements
import Mathlib.Data.List.ReduceOption

/-! A script is the sequence of its parts. Sources with line breaks between them do to an engine
what they do one after the other, and a file prints what its lines print last. -/
namespace Reckon

def hasStatement (source : String) : Bool :=
  match Expr.read source with
  | .ok e => !e.isEmpty
  | .error _ => false

/-- The value of the last source that has a statement, `last` if there is none. -/
def lastValue (last : Option Value) (parts : List (String × Option Value)) : Option Value :=
  ((parts.filter fun part => hasStatement part.1).getLast?.map Prod.snd).getD last

theorem lastValue_cons (last v : Option Value) (source : String)
    (parts : List (String × Option Value)) :
    lastValue last ((source, v) :: parts) =
      lastValue (if hasStatement source then v else last) parts := by
  unfold lastValue
  cases h : hasStatement source with
  | false => simp [h]
  | true =>
    cases hl : (parts.filter fun part => hasStatement part.1).getLast? <;>
      simp [h, hl, List.getLast?_cons]

theorem Expr.isEmpty_skeleton (e : Expr) : e.skeleton.isEmpty = e.isEmpty := by
  rcases e with _ | _ | _ | _ | _ | _ | _ | ⟨_ | _⟩ <;> rfl

theorem Expr.PrintableStatement.isEmpty {e : Expr} (h : e.PrintableStatement) :
    e.isEmpty = false := by
  rcases h with _ | ⟨_ | _ | _ | _ | _ | _ | _ | _⟩ <;> rfl

theorem Contains.hasStatement {source : String} (h : Contains source.toList es) :
    hasStatement source = !es.isEmpty := by
  obtain ⟨e, he, tree⟩ := h.read
  have empty : e.isEmpty = es.isEmpty := by
    rw [← e.isEmpty_skeleton, tree]
    rcases es with _ | ⟨only, _ | _⟩
    · rfl
    · exact (h.printable only (by simp)).isEmpty
    · rfl
  simp [Reckon.hasStatement, he, empty]

def Codes (mode : LiteralMode) (cs : List Char) (xs : List Executable) : Prop :=
  ∃ es, Contains cs es ∧ Expr.compileAll mode es = .ok xs

namespace Codes

theorem hasStatement {source : String} (h : Codes mode source.toList xs) :
    hasStatement source = !xs.isEmpty := by
  obtain ⟨es, contains, compiled⟩ := h
  rw [contains.hasStatement]
  cases Expr.compileAll_eq_ok.mp compiled <;> rfl

theorem ne_block (h : Codes mode cs xs) : ∀ x ∈ xs, ∀ ys, x ≠ .block ys := by
  obtain ⟨es, contains, compiled⟩ := h
  intro x member
  rw [Expr.compileAll_eq_mapM] at compiled
  obtain ⟨e, inside, made⟩ := Outcome.mapM_ok compiled x member
  exact (contains.printable e inside).compile_ne_block made

end Codes

/-- Sources of statements that are all compiled have code source by source. -/
theorem Contents.codes (contents : Contents sources ess)
    (each : ∀ t ∈ ess.flatten, ∃ x, t.compile mode = .ok x) :
    ∃ xss, List.Forall₂ (fun source xs => Codes mode source.toList xs) sources xss ∧
      Expr.compileAll mode ess.flatten = .ok xss.flatten := by
  induction contents with
  | nil => exact ⟨[], .nil, rfl⟩
  | @cons source es sources ess contains _ ih =>
    rw [List.flatten_cons, List.forall_mem_append] at each
    obtain ⟨xs, first⟩ := Expr.exists_compileAll.mpr each.1
    obtain ⟨xss, codes, rest⟩ := ih each.2
    refine ⟨xs :: xss, .cons ⟨es, contains, first⟩ codes, ?_⟩
    rw [Expr.compileAll_eq_ok] at first rest ⊢
    exact List.rel_append first rest

namespace Engine

def evalEach (offered : Host) (e : Engine) :
    List String → Except Failure (List (Option Value)) × Engine
  | [] => (.ok [], e)
  | source :: sources =>
    match e.eval offered source with
    | (.error f, e') => (.error f, e')
    | (.ok v, e') =>
      let (values, e'') := e'.evalEach offered sources
      (values.map (v :: ·), e'')

/-- A source is evaluated as its statements, unless one of them cannot be compiled. -/
theorem eval_of_codes {source : String} (e : Engine)
    (h : Codes e.settings.literals source.toList xs) (offered : Host) :
    e.eval offered source = e.runStatements offered none xs := by
  obtain ⟨es, contains, compiled⟩ := h
  obtain ⟨t, read, tree⟩ := contains.read
  obtain ⟨x, made, run⟩ := Executable.compile_ofStatements compiled
  rw [← tree, Expr.compile_skeleton] at made
  rw [eval_of_compile read made]
  simp only [Executable.evaluate, Executable.evalWithin_eq, run]
  rfl

/-- A source is compiled if and only if all of its statements are. -/
theorem compiles_iff {source : String} (h : Contains source.toList es) (e : Engine) :
    (∃ p, e.compile source = .ok p) ↔ ∀ t ∈ es, ∃ x, t.compile e.settings.literals = .ok x := by
  obtain ⟨t, read, tree⟩ := h.read
  rw [← Expr.exists_compileAll]
  constructor
  · rintro ⟨p, compiled⟩
    rcases compile_cases read e with ⟨x, _, made, _⟩ | ⟨_, failed⟩
    · rw [← Expr.compile_skeleton, tree] at made
      exact Executable.compileAll_of_ofStatements made
    · cases failed.symm.trans compiled
  · rintro ⟨xs, compiled⟩
    obtain ⟨x, made, _⟩ := Executable.compile_ofStatements compiled
    rw [← tree, Expr.compile_skeleton] at made
    rcases compile_cases read e with ⟨_, p, _, compiled⟩ | ⟨failed, _⟩
    · exact ⟨p, compiled⟩
    · cases failed.symm.trans made

theorem compiles_contents (contents : Contents sources ess) (e : Engine) :
    (∀ source ∈ sources, ∃ p, e.compile source = .ok p) ↔
      ∀ t ∈ ess.flatten, ∃ x, t.compile e.settings.literals = .ok x := by
  induction contents with
  | nil => simp
  | cons contains _ ih =>
    rw [List.forall_mem_cons, compiles_iff contains, ih, List.flatten_cons,
      List.forall_mem_append]

/-- One source without a statement leaves everything as it is, and any other one puts its value in
place of the last one. -/
theorem runStatements_of_codes {source : String} (e : Engine)
    (h : Codes e.settings.literals source.toList xs) (offered : Host) (last : Option Value) :
    e.runStatements offered last xs =
      ((e.eval offered source).1.map fun v => if hasStatement source then v else last,
        (e.eval offered source).2) := by
  rw [eval_of_codes e h, h.hasStatement]
  cases xs with
  | nil => rfl
  | cons x xs =>
    rw [runStatements_of_ne_nil (by simp)]
    rcases e.runStatements offered none (x :: xs) with ⟨_ | _, e'⟩ <;> rfl

theorem eval_settings (offered : Host) (e : Engine) (source : String) :
    (e.eval offered source).2.settings = e.settings := by
  rw [eval]
  cases e.compile source <;> rfl

/-- The statements of sources run as the sources do one after the other. -/
theorem runStatements_flatten (offered : Host) (e : Engine)
    (h : List.Forall₂ (fun source xs => Codes e.settings.literals source.toList xs) sources xss)
    (last : Option Value) :
    e.runStatements offered last xss.flatten =
      ((e.evalEach offered sources).1.map fun vs => lastValue last (sources.zip vs),
        (e.evalEach offered sources).2) := by
  generalize mode : e.settings.literals = literals at h
  induction h generalizing e last with
  | nil => rfl
  | @cons source xs sources xss first _ ih =>
    subst mode
    have settings := e.eval_settings offered source
    rw [List.flatten_cons, runStatements_append, runStatements_of_codes e first]
    cases he : e.eval offered source with
    | mk r e' =>
      rw [he] at settings
      cases r with
      | error f => simp [evalEach, he, Except.map]
      | ok v =>
        simp only [evalEach, he, Except.map, ih e' _ (congrArg Settings.literals settings)]
        cases (e'.evalEach offered sources).1 <;> simp [lastValue_cons]

/-- Sources that are compiled make up a source that does what they do one after the other. -/
theorem eval_of_contents {text : String} {e : Engine} (contents : Contents sources ess)
    (whole : Contains text.toList ess.flatten)
    (compiled : ∀ source ∈ sources, ∃ p, e.compile source = .ok p) (offered : Host) :
    e.eval offered text =
      ((e.evalEach offered sources).1.map fun vs => lastValue none (sources.zip vs),
        (e.evalEach offered sources).2) := by
  obtain ⟨xss, codes, made⟩ := contents.codes ((compiles_contents contents e).mp compiled)
  rw [eval_of_codes e ⟨_, whole, made⟩, runStatements_flatten offered e codes]

theorem evalEach_cons {e : Engine} (run : (e.evalEach offered (source :: sources)).1 = .ok vs) :
    ∃ v e' ws, e.eval offered source = (.ok v, e') ∧
      (e'.evalEach offered sources).1 = .ok ws ∧ vs = v :: ws := by
  unfold evalEach at run
  split at run
  · cases run
  · rename_i v e' first
    rcases others : e'.evalEach offered sources with ⟨f | ws, e''⟩
    · rw [others] at run
      cases run
    · rw [others] at run
      cases run
      exact ⟨v, e', ws, first, congrArg Prod.fst others, rfl⟩

/-- A source that is evaluated well is compiled. -/
theorem compile_of_evalEach {e : Engine} (run : (e.evalEach offered sources).1 = .ok vs) :
    ∀ source ∈ sources, ∃ p, e.compile source = .ok p := by
  generalize same : e.settings = s
  induction sources generalizing e vs with
  | nil => simp
  | cons source sources ih =>
    obtain ⟨v, e', ws, first, others, rfl⟩ := evalEach_cons run
    have settings := e.eval_settings offered source
    rw [first] at settings
    refine List.forall_mem_cons.mpr ⟨?_, fun other member => ?_⟩
    · cases compiled : e.compile source with
      | ok p => exact ⟨p, rfl⟩
      | error f => cases (eval_of_error compiled offered).symm.trans first
    · obtain ⟨p, compiled⟩ := ih others (settings.trans same) other member
      exact ⟨p, by rwa [compile, settings] at compiled⟩

/-- Of sources that are evaluated well, those with a statement have a value and no others. -/
theorem hasStatement_of_evalEach {e : Engine}
    (h : List.Forall₂ (fun source xs => Codes e.settings.literals source.toList xs) sources xss)
    (run : (e.evalEach offered sources).1 = .ok vs) :
    List.Forall₂ (fun source v => hasStatement source = v.isSome) sources vs := by
  generalize mode : e.settings.literals = literals at h
  induction h generalizing e vs with
  | nil =>
    cases run
    exact .nil
  | @cons source xs sources xss codes _ ih =>
    subst mode
    obtain ⟨v, e', ws, first, others, rfl⟩ := evalEach_cons run
    have settings := e.eval_settings offered source
    rw [first] at settings
    refine .cons ?_ (ih others (congrArg Settings.literals settings))
    rw [eval_of_codes e codes] at first
    rw [codes.hasStatement]
    cases xs with
    | nil =>
      cases first
      rfl
    | cons x xs =>
      have some_ : v.isSome :=
        runStatements_isSome codes.ne_block (by simp) (congrArg Prod.fst first)
      rw [some_]
      rfl

end Engine

/-- If the sources with a statement are those with a value, the last value is that of the last
source with a statement. -/
theorem lastValue_zip
    (h : List.Forall₂ (fun source v => hasStatement source = Option.isSome v) sources vs) :
    lastValue none (sources.zip vs) = vs.reduceOption.getLast? := by
  have values : ((sources.zip vs).filter fun part => hasStatement part.1).map Prod.snd =
      vs.reduceOption.map some := by
    induction h with
    | nil => rfl
    | @cons source v sources vs first _ ih => cases v <;> simp_all [List.reduceOption]
  rw [lastValue, ← List.getLast?_map, values, List.getLast?_map]
  cases vs.reduceOption.getLast? <;> rfl

namespace CommandLine

/-- Lines that are evaluated well print their values. -/
theorem runLines_of_evalEach {e : Engine} (run : (e.evalEach .none lines).1 = .ok vs) :
    runLines e lines = ⟨0, vs.reduceOption.map Value.render, []⟩ := by
  induction lines generalizing e vs with
  | nil =>
    cases run
    rfl
  | cons line lines ih =>
    obtain ⟨v, e', ws, first, others, rfl⟩ := Engine.evalEach_cons run
    rw [runLines]
    cases v <;> simp [runSource, first, ih others, List.reduceOption, brokenOffCode]

end CommandLine

/-- Sources with line breaks between them, each of which is read and compiled, are evaluated one
after the other up to the first that fails, and otherwise to the value of the last one with a
statement. Where a source that is read cannot be compiled, reading one of its literals runs over, and
with that source among them nothing is evaluated at all. A file whose lines are all evaluated well
prints what they print last. -/
theorem Engine.eval_script (offered : Host) (e : Engine) (sources : List String) :
    ((∀ source ∈ sources, ∃ t, Expr.read source = .ok t) →
      ((∀ source ∈ sources, ∃ p, e.compile source = .ok p) →
        e.eval offered ("\n".intercalate sources) =
          ((e.evalEach offered sources).1.map fun vs => lastValue none (sources.zip vs),
            (e.evalEach offered sources).2)) ∧
      (∀ source ∈ sources, (∃ p, e.compile source = .ok p) ∨
        e.compile source = .error (.fault .overflow) ∧
          e.eval offered ("\n".intercalate sources) = (.error (.fault .overflow), e))) ∧
    ∀ (s : Settings) (text : String) (vs : List (Option Value)),
      ((Engine.new s).evalEach .none (CommandLine.splitLines text.toList)).1 = .ok vs →
      ∀ (input name : String) (file : String → Except CommandLine.ReadError String),
      file name = .ok text → ∃ out : List String,
        CommandLine.Invocation.run ⟨s, .input⟩ text file = ⟨0, out, []⟩ ∧
        CommandLine.Invocation.run ⟨s, .file name⟩ input file = ⟨0, out.getLast?.toList, []⟩ := by
  refine ⟨fun read => ?_, fun s text vs run input name file found => ?_⟩
  · obtain ⟨ess, contents⟩ := Contents.of_read read
    refine ⟨fun compiled => eval_of_contents contents contents.intercalate compiled offered,
      fun source member => ?_⟩
    obtain ⟨t, tree⟩ := read source member
    rcases compile_cases tree e with ⟨_, p, _, compiled⟩ | ⟨_, broken⟩
    · exact .inl ⟨p, compiled⟩
    · obtain ⟨t', tree', _⟩ := contents.intercalate.read
      rcases compile_cases tree' e with ⟨_, p, _, whole⟩ | ⟨_, failed⟩
      · have each := (compiles_iff contents.intercalate e).mp ⟨p, whole⟩
        obtain ⟨p, compiled⟩ := (compiles_contents contents e).mpr each source member
        exact .inl ⟨p, compiled⟩
      · exact .inr ⟨broken, eval_of_error failed offered⟩
  · have compiled := compile_of_evalEach run
    obtain ⟨ess, contents⟩ := Contents.of_read fun line member => by
      obtain ⟨_, made⟩ := compiled line member
      obtain ⟨t, _, read, _⟩ := compile_eq_ok.mp made
      exact ⟨t, read⟩
    have whole := eval_of_contents contents (CommandLine.contains_of_lines contents) compiled .none
    rw [run] at whole
    obtain ⟨_, codes, _⟩ := contents.codes ((compiles_contents contents _).mp compiled)
    have value := lastValue_zip (hasStatement_of_evalEach codes run)
    refine ⟨_, CommandLine.runLines_of_evalEach run, ?_⟩
    simp only [CommandLine.Invocation.run, found, CommandLine.runSource, whole, Except.map, value]
    cases hl : vs.reduceOption.getLast? <;> simp [List.getLast?_map, hl]

/-- An assignment, a comment and a name; and lines that end in different ways, the last of them
empty. -/
theorem Engine.eval_script_assignment :
    let e := Engine.new {}
    let sources := ["a = 1", "# one", "a"]
    let text := "a = true\r\n# one\n\n"
    let file : String → Except CommandLine.ReadError String := fun _ => .ok text
    ((∀ source ∈ sources, ∃ t, Expr.read source = .ok t) ∧
      (∀ source ∈ sources, ∃ p, e.compile source = .ok p) ∧
      e.eval .none ("\n".intercalate sources) =
        ((e.evalEach .none sources).1.map fun vs => lastValue none (sources.zip vs),
          (e.evalEach .none sources).2)) ∧
    (e.evalEach .none (CommandLine.splitLines text.toList)).1 =
      .ok [some (.boolean true), none, none] ∧
    ∃ out : List String,
      CommandLine.Invocation.run ⟨{}, .input⟩ text file = ⟨0, out, []⟩ ∧
      CommandLine.Invocation.run ⟨{}, .file "f"⟩ "" file = ⟨0, out.getLast?.toList, []⟩ := by
  obtain ⟨numbered, flagged⟩ : tokenize "a = 1" =
        .ok [⟨.identifier "a", 0⟩, ⟨.symbol .equals, 2⟩, ⟨.number "1", 4⟩] ∧
      tokenize "a = true" =
        .ok [⟨.identifier "a", 0⟩, ⟨.symbol .equals, 2⟩, ⟨.boolean true, 4⟩] := by
    refine ⟨?_, ?_⟩ <;> with_unfolding_all rfl
  obtain ⟨one, flag⟩ : Expr.read "a = 1" = .ok (.assign "a" (.literal (.number "1") 4) 0) ∧
      Expr.read "a = true" = .ok (.assign "a" (.literal (.boolean true) 4) 0) := by
    rw [Expr.read_of_tokens numbered, Expr.read_of_tokens flagged]
    exact ⟨rfl, rfl⟩
  obtain ⟨lines, note, name, blank⟩ :
      CommandLine.splitLines "a = true\r\n# one\n\n".toList = ["a = true", "# one", ""] ∧
      Expr.read "# one" = .ok (.block [] 5) ∧ Expr.read "a" = .ok (.name "a" 0) ∧
      Expr.read "" = .ok (.block [] 0) := by
    refine ⟨?_, ?_, ?_, ?_⟩ <;> with_unfolding_all rfl
  intro e sources text file
  have read : ∀ source ∈ sources, ∃ t, Expr.read source = .ok t := by
    simp [sources, one, note, name]
  have compiled : ∀ source ∈ sources, ∃ p, e.compile source = .ok p := by
    refine List.forall_mem_cons.mpr ⟨⟨_, compile_of_read one e⟩, List.forall_mem_cons.mpr
      ⟨⟨_, compile_of_read note e⟩, List.forall_mem_singleton.mpr ⟨_, compile_of_read name e⟩⟩⟩
  have run : (e.evalEach .none (CommandLine.splitLines text.toList)).1 =
      .ok [some (.boolean true), none, none] := by
    rw [lines]
    simp only [evalEach, eval, compile_of_read flag, compile_of_read note, compile_of_read blank]
    rfl
  obtain ⟨script, lines⟩ := eval_script .none e sources
  exact ⟨⟨read, compiled, (script read).1 compiled⟩, run, lines {} text _ run "" "f" file rfl⟩

/-- A name without a value and a number whose literal cannot be compiled. One after the other, the
name is the first to fail; joined, nothing is evaluated. -/
theorem Engine.eval_script_least_scale :
    let e := Engine.new { literals := .exact }
    let sources := ["x", "1e-9223372036854775808"]
    (∀ source ∈ sources, ∃ t, Expr.read source = .ok t) ∧
    (e.evalEach .none sources).1 = .error (.fault (.undefinedSymbol "x")) ∧
    (e.eval .none ("\n".intercalate sources)).1 = .error (.fault .overflow) := by
  obtain ⟨alone, behind⟩ : tokenize "1e-9223372036854775808" =
        .ok [⟨.number "1e-9223372036854775808", 0⟩] ∧
      tokenize "x\n1e-9223372036854775808" = .ok [⟨.identifier "x", 0⟩, ⟨.symbol .newline, 1⟩,
        ⟨.number "1e-9223372036854775808", 2⟩] := by
    refine ⟨?_, ?_⟩ <;> with_unfolding_all rfl
  have name : Expr.read "x" = .ok (.name "x" 0) := by with_unfolding_all rfl
  obtain ⟨number, joined⟩ : Expr.read "1e-9223372036854775808" =
        .ok (.literal (.number "1e-9223372036854775808") 0) ∧
      Expr.read "x\n1e-9223372036854775808" =
        .ok (.block [.name "x" 0, .literal (.number "1e-9223372036854775808") 2] 0) := by
    rw [Expr.read_of_tokens alone, Expr.read_of_tokens behind]
    exact ⟨rfl, rfl⟩
  intro e sources
  refine ⟨by simp [sources, name, number], ?_, ?_⟩
  · simp only [sources, evalEach, eval, compile_of_read name]
    rfl
  · have broken : e.compile "x\n1e-9223372036854775808" = .error (.fault .overflow) :=
      compile_of_read joined e
    exact congrArg Prod.fst (eval_of_error broken .none)

end Reckon
