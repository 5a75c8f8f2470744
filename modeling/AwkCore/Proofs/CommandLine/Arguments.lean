import AwkCore.CommandLine
import Mathlib.Tactic.Common

/-!
# What the arguments select

An argument names a program file, asks for an echo of the lines, or is an operand, if it is none of
those that end the reading. The files alone select the program, and if there are none the first operand
does. An echo adds to the other output only.
-/
namespace AwkCore.CommandLine

/-- What an argument is. An `-f` that is `bare` has nothing behind it that it could take along. -/
inductive Argument
  | file (name : String)
  | echo
  | operand (text : String)
  | help
  | version
  | stop
  | bare
  | unknown (option : String)
  deriving DecidableEq, Repr

namespace Argument

/-- An argument by itself. -/
def single (arg : String) : Argument :=
  if arg = "--help" ∨ arg = "-h" then .help
  else if arg = "--version" then .version
  else if arg = "-f" then .bare
  else if arg = "-p" then .echo
  else if arg = "--" then .stop
  else match arg.toList with
    | '-' :: 'f' :: name => .file (String.ofList name)
    | '-' :: _ :: _ => .unknown arg
    | _ => .operand arg

/-- An `-f` takes the argument behind it along, whatever that looks like. -/
def ofArgs : List String → List Argument
  | [] => []
  | [arg] => [single arg]
  | arg :: next :: args =>
    if arg = "-f" then .file next :: ofArgs args else single arg :: ofArgs (next :: args)

/-- The reading goes on behind such an argument. -/
def continues : Argument → Bool
  | file _ | echo | operand _ => true
  | _ => false

def file? : Argument → Option String
  | file name => some name
  | _ => none

def operand? : Argument → Option String
  | operand text => some text
  | _ => none

end Argument

def programFiles (args : List String) : List String := (Argument.ofArgs args).filterMap Argument.file?

def firstOperand? (args : List String) : Option String :=
  ((Argument.ofArgs args).filterMap Argument.operand?).head?

/-- Whether lines are to be echoed. -/
def echoes (args : List String) : Bool := .echo ∈ Argument.ofArgs args

/-- Nothing among the arguments ends their reading: no request for help or the version, no `--`, no
option that is not known, and no `-f` at the end. -/
def Plain (args : List String) : Prop := ∀ a ∈ Argument.ofArgs args, a.continues

instance (args : List String) : Decidable (Plain args) :=
  inferInstanceAs (Decidable (∀ a ∈ Argument.ofArgs args, a.continues))

/-- What is selected by some files, or else by an operand. -/
def choose (files : List String) (operand : Option String) (echo : Bool) : Command :=
  if files = [] then operand.elim (.refuse "no program provided") fun text => .list (.text text) echo
  else .list (.files files) echo

namespace Options

variable (o : Options)

def take : Argument → Options
  | .file name => o.addPath name
  | .echo => { o with echo := true }
  | .operand text => o.addOperand text
  | _ => o

def takeAll (as : List Argument) : Options := as.foldl take o

theorem command_eq : o.command = choose o.paths o.operand o.echo := by
  unfold command choose
  cases o.paths with
  | nil => cases o.operand <;> rfl
  | cons path paths => rfl

theorem paths_takeAll (as : List Argument) :
    (o.takeAll as).paths = o.paths ++ as.filterMap Argument.file? := by
  induction as generalizing o with
  | nil => exact (List.append_nil _).symm
  | cons a as ih =>
    refine (ih (o.take a)).trans ?_
    cases a with
    | file name => exact List.append_assoc _ _ _
    | operand text =>
      rw [List.filterMap_cons_none rfl, take, addOperand]
      split <;> rfl
    | _ => rfl

theorem echo_takeAll (as : List Argument) : (o.takeAll as).echo = (o.echo || decide (.echo ∈ as)) := by
  induction as generalizing o with
  | nil => simp [takeAll]
  | cons a as ih =>
    refine (ih (o.take a)).trans ?_
    cases a with
    | echo => simp [take]
    | operand text =>
      have same : (o.addOperand text).echo = o.echo := by
        unfold addOperand
        split <;> rfl
      simp [take, same]
    | _ => simp [take, addPath]

/-- The first operand is kept as long as no file is named. -/
theorem operand_takeAll (as : List Argument) (none : (o.takeAll as).paths = []) :
    (o.takeAll as).operand = o.operand.or (as.filterMap Argument.operand?).head? := by
  induction as generalizing o with
  | nil => simp [takeAll]
  | cons a as ih =>
    have before : o.paths = [] := by
      rw [paths_takeAll] at none
      exact (List.append_eq_nil_iff.mp none).1
    refine (ih (o.take a) none).trans ?_
    cases a with
    | operand text =>
      cases first : o.operand <;> simp [take, addOperand, before, first, Argument.operand?]
    | _ => rfl

end Options

variable {o : Options} {arg : String} {args args' : List String}

/-- An argument that is no `-f` is read by itself. -/
theorem parseFrom_single (goes : (Argument.single arg).continues) :
    parseFrom o (arg :: args) = parseFrom (o.take (.single arg)) args := by
  unfold Argument.single at goes ⊢
  rw [parseFrom.eq_def]
  simp only
  split_ifs at goes ⊢
  · contradiction
  · contradiction
  · contradiction
  · rfl
  · contradiction
  · -- The text of the argument is looked at sign by sign, as far as both readings tell it apart.
    generalize arg.toList = signs at goes ⊢
    cases signs with
    | nil => rfl
    | cons first signs =>
      by_cases dash : first = '-'
      · subst dash
        cases signs with
        | nil => rfl
        | cons letter path =>
          by_cases file : letter = 'f'
          · subst file
            rfl
          · simp [Argument.continues] at goes
      · simp [dash, Options.take]

/-- Where nothing ends the reading, every argument is taken in turn. -/
theorem parseFrom_plain (plain : Plain args) :
    parseFrom o args = (o.takeAll (Argument.ofArgs args)).command := by
  unfold Plain at plain
  fun_induction Argument.ofArgs args generalizing o with
  | case1 => rfl
  | case2 arg =>
    rw [List.forall_mem_singleton] at plain
    exact parseFrom_single plain
  | case3 next args ih =>
    rw [List.forall_mem_cons] at plain
    exact ih plain.2
  | case4 arg next args _ ih =>
    rw [List.forall_mem_cons] at plain
    exact (parseFrom_single plain.1).trans (ih plain.2)

theorem parse_plain (plain : Plain args) :
    parse args = choose (programFiles args) (firstOperand? args) (echoes args) := by
  let read := Options.takeAll {} (Argument.ofArgs args)
  have paths : read.paths = programFiles args := Options.paths_takeAll {} _
  have echo : read.echo = echoes args := (Options.echo_takeAll {} _).trans (Bool.false_or _)
  have parsed : parse args = choose read.paths read.operand read.echo :=
    (parseFrom_plain plain).trans read.command_eq
  rw [parsed, paths, echo]
  by_cases none : programFiles args = []
  · have operand : read.operand = firstOperand? args :=
      (Options.operand_takeAll {} _ (paths.trans none)).trans Option.none_or
    rw [operand]
  · rw [choose, choose, if_neg none, if_neg none]

/-- Whether lines are echoed makes no difference to the exit code and to standard output. -/
theorem report_choose (read : Selection → Except Failure Program) (files : List String)
    (operand : Option String) (echo echo' : Bool) :
    ((choose files operand echo).report read).code = ((choose files operand echo').report read).code ∧
    ((choose files operand echo).report read).stdout =
      ((choose files operand echo').report read).stdout := by
  have listed (selection : Selection) :
      ((Command.list selection echo).report read).code =
        ((Command.list selection echo').report read).code ∧
      ((Command.list selection echo).report read).stdout =
        ((Command.list selection echo').report read).stdout := by
    rw [Command.report, Command.report]
    cases read selection <;> exact ⟨rfl, rfl⟩
  unfold choose
  split
  · cases operand with
    | none => exact ⟨rfl, rfl⟩
    | some text => exact listed (.text text)
  · exact listed (.files files)

/-- Two lists of arguments that nothing ends give the same if they name the same files, or have the
same first operand where they name none: the same exit code and the same standard output, and the same
on the other output too if both or neither of them ask for an echo. -/
theorem run_eq_of_files_eq (plain : Plain args) (plain' : Plain args')
    (files : programFiles args = programFiles args')
    (operand : programFiles args = [] → firstOperand? args = firstOperand? args')
    (system : FileSystem) (stdin : OpenFile) :
    (run args system stdin).code = (run args' system stdin).code ∧
    (run args system stdin).stdout = (run args' system stdin).stdout ∧
    (echoes args = echoes args' → run args system stdin = run args' system stdin) := by
  have selected : choose (programFiles args') (firstOperand? args') (echoes args') =
      choose (programFiles args) (firstOperand? args) (echoes args') := by
    rw [← files]
    by_cases none : programFiles args = []
    · rw [operand none]
    · rw [choose, choose, if_neg none, if_neg none]
  unfold run
  rw [parse_plain plain, parse_plain plain', selected]
  obtain ⟨code, stdout⟩ := report_choose (Selection.program system stdin) (programFiles args)
    (firstOperand? args) (echoes args) (echoes args')
  exact ⟨code, stdout, fun same => by rw [same]⟩

/-- A file that looks like an option, an operand that is a dash, and other operands elsewhere. -/
theorem run_eq_of_files_eq_mixed :
    let args := ["x", "-f", "-h", "-", "-f/lib/b.awk", "-p"]
    let args' := ["-p", "-f-h", "-f", "/lib/b.awk", "y"]
    let system := FileSystem.ofList [("-h", ascii "a"), ("/lib/b.awk", ascii "+ b\n")]
    let stdin := OpenFile.ofBytes []
    Plain args ∧ Plain args' ∧ programFiles args = ["-h", "/lib/b.awk"] ∧
      programFiles args' = ["-h", "/lib/b.awk"] ∧ run args system stdin = run args' system stdin ∧
      (run args system stdin).code = 0 := by
  intro args args' system stdin
  have plain : Plain args := by decide +kernel
  have plain' : Plain args' := by decide +kernel
  have files : programFiles args = ["-h", "/lib/b.awk"] := by decide +kernel
  have files' : programFiles args' = ["-h", "/lib/b.awk"] := by decide +kernel
  have code : (run args system stdin).code = 0 := by decide +kernel
  have operand : programFiles args = [] → firstOperand? args = firstOperand? args' := by
    rw [files]
    exact nofun
  obtain ⟨_, _, same⟩ :=
    run_eq_of_files_eq plain plain' (files.trans files'.symm) operand system stdin
  exact ⟨plain, plain', files, files', same (by decide +kernel), code⟩

end AwkCore.CommandLine
