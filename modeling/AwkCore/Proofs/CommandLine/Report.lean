import AwkCore.Proofs.CommandLine.Columns
import AwkCore.Proofs.Scanner.Reads

/-!
# What the command reports

A program that the arguments select is scanned call by call. Each token makes a line of the listing,
and what is noted besides is all warnings in their order and then the failure that ended the scan, if
there is one. The exit code tells whether the scan came to the end of input.
-/
namespace AwkCore

/-- What successive calls give, up to the first end of input or failure. A call that fails records
warnings too. -/
inductive Scanner.Gives : Scanner → Reading → Prop
  | failed {s : Scanner} {failure : Failure} (error : s.next.outcome = .error failure) :
    Gives s ⟨[], some failure, s.next.warnings⟩
  | ended {s t : Scanner} (ok : s.next.outcome = .ok t) (ends : t.current.kind = .endOfInput) :
    Gives s ⟨[t.current], none, s.next.warnings⟩
  | called {s t : Scanner} {r : Reading} (ok : s.next.outcome = .ok t)
      (more : t.current.kind ≠ .endOfInput) (later : Gives t r) :
    Gives s (r.after [t.current] s.next.warnings)

theorem Scanner.gives_reading (s : Scanner) : s.Gives s.reading := by
  induction s using advances.induct with
  | case1 s failure error =>
    rw [reading_error error]
    exact .failed error
  | case2 s t ok ends =>
    rw [reading_last ok ends]
    exact .ended ok ends
  | case3 s t ok more ih =>
    rw [reading_more ok more]
    exact .called ok more ih

namespace CommandLine

open Scanner (Gives advances advances_error advances_ok)

variable {s : Scanner} {r : Reading} {o : Options} {args : List String} {selection : Selection}
  {echo : Bool}

theorem listed_gives (gives : s.Gives r) :
    String.join (s.advances.map listed) = String.join (r.tokens.map tokenLine) := by
  induction gives with
  | failed error => simp [advances_error error, listed, error]
  | ended ok ends => simp [advances_ok ok, ends, listed, ok]
  | called ok more _ ih => simp [advances_ok ok, more, listed, ok, Reading.after, ih]

theorem failed_gives (gives : s.Gives r) : s.advances.any failed = r.failure.isSome := by
  induction gives with
  | failed error => simp [advances_error error, failed, error]
  | ended ok ends => simp [advances_ok ok, ends, failed, ok]
  | called ok more _ ih => simp [advances_ok ok, more, failed, ok, Reading.after, ih]

theorem warningLines_append (ds es : List Diagnostic) :
    warningLines (ds ++ es) = warningLines ds ++ warningLines es := by
  simp [warningLines]

/-- When no line is echoed, warnings and the failure are all that is noted. -/
theorem notes_gives (gives : s.Gives r) (linesRead : ℕ) :
    String.join (notesFrom [] linesRead s.advances) =
      warningLines r.warnings ++ r.failure.elim "" failureLine := by
  induction gives generalizing linesRead with
  | failed error => simp [advances_error error, notesFrom, error]
  | ended ok ends => simp [advances_ok ok, ends, notesFrom, ok]
  | called ok more _ ih =>
    simp [advances_ok ok, more, notesFrom, ok, Reading.after, ih, warningLines_append,
      String.append_assoc]

theorem reportCalls_gives (gives : s.Gives r) : reportCalls [] s.advances =
    ⟨if r.failure.isSome then 2 else 0, String.join (r.tokens.map tokenLine),
      warningLines r.warnings ++ r.failure.elim "" failureLine⟩ := by
  rw [reportCalls, failed_gives gives, listed_gives gives, notes_gives gives]

theorem Options.addOperand_echo (o : Options) (operand : String) :
    (o.addOperand operand).echo = o.echo := by
  unfold addOperand
  split <;> rfl

theorem Options.command_list (h : o.command = .list selection echo) :
    echo = o.echo ∧ ∀ paths, selection = .files paths → paths ≠ [] := by
  unfold command at h
  split at h
  · split at h
    · cases h
      exact ⟨rfl, nofun⟩
    · cases h
  · rename_i some_path
    cases h
    refine ⟨rfl, ?_⟩
    rintro paths ⟨⟩
    simpa using some_path

/-- A listing is asked for by the options that have been read, and only one of them echoes lines. -/
theorem parseFrom_list (h : parseFrom o args = .list selection echo) :
    ∃ read : Options, read.command = .list selection echo ∧ ("-p" ∉ args → read.echo = o.echo) := by
  have tail {arg : String} {args : List String} (quiet : "-p" ∉ arg :: args) : "-p" ∉ args :=
    fun mem => quiet (List.mem_cons_of_mem _ mem)
  fun_induction parseFrom o args with
  | case1 o => exact ⟨o, h, fun _ => rfl⟩
  | case2 => cases h
  | case3 => cases h
  | case4 => cases h
  | case5 o path args _ _ ih =>
    obtain ⟨read, command, same⟩ := ih h
    exact ⟨read, command, fun quiet => same (tail (tail quiet))⟩
  | case6 o args _ _ _ ih =>
    obtain ⟨read, command, _⟩ := ih h
    exact ⟨read, command, fun quiet => absurd List.mem_cons_self quiet⟩
  | case7 o => exact ⟨o, h, fun _ => rfl⟩
  | case8 o operand => exact ⟨o.addOperand operand, h, fun _ => o.addOperand_echo operand⟩
  | case9 o arg args _ _ _ _ _ path _ ih =>
    obtain ⟨read, command, same⟩ := ih h
    exact ⟨read, command, fun quiet => same (tail quiet)⟩
  | case10 => cases h
  | case11 o arg args _ _ _ _ _ _ _ ih =>
    obtain ⟨read, command, same⟩ := ih h
    exact ⟨read, command, fun quiet => (same (tail quiet)).trans (o.addOperand_echo arg)⟩

theorem Selection.program_ok (selection : Selection) (system : FileSystem) (stdin : OpenFile)
    (named : ∀ paths, selection = .files paths → paths ≠ []) :
    ∃ p, selection.program system stdin = .ok p := by
  cases selection with
  | text program => exact ⟨_, rfl⟩
  | files paths =>
    have some_path : ¬ paths.isEmpty = true := by simpa using named paths rfl
    exact ⟨_, by rw [program, FileSystem.program, if_neg some_path]⟩

/-- What the command gives for arguments that select a program, when no line is echoed. Standard output
is a line for each token, with its text in the last column, shown so that no column ends early. The exit
code is 0 if the calls came to the end of input, and 2 otherwise. The other output is all warnings, and
then the failure, which is told in the name of the command unless it is one of the scanner. -/
theorem run_list (selects : parse args = .list selection echo) (quiet : "-p" ∉ args)
    (system : FileSystem) (stdin : OpenFile) :
    ∃ p r, selection.program system stdin = .ok p ∧ (Scanner.ofProgram p).Gives r ∧
      run args system stdin =
        { code := if r.failure = none then 0 else 2
          stdout := String.join (r.tokens.map fun t => "\t".intercalate t.columns ++ "\n")
          stderr := String.join (r.warnings.map fun d => d.text ++ "\n") ++
            match r.failure with
            | none => ""
            | some (.lexical l message) => l.text ++ ": " ++ message ++ "\n"
            | some failure => "zawk: " ++ failure.message ++ "\n" } ∧
      ∀ t ∈ r.tokens, (∀ column ∈ t.columns, PlainColumn column) ∧
        ∃ shown, Shows t.text shown ∧
          t.columns = [toString t.location.line, t.kind.tokenClass.text, t.kind.text, shown] := by
  obtain ⟨read, command, same⟩ := parseFrom_list selects
  obtain ⟨echoes, named⟩ := Options.command_list command
  obtain rfl : echo = false := echoes.trans (same quiet)
  obtain ⟨p, program⟩ := selection.program_ok system stdin named
  have reported : run args system stdin = reportCalls [] (Scanner.ofProgram p).advances := by
    rw [run, selects, Command.report, program]
    rfl
  obtain ⟨⟨tokens, failure, warnings⟩, gives⟩ : ∃ r, (Scanner.ofProgram p).Gives r :=
    ⟨_, (Scanner.ofProgram p).gives_reading⟩
  refine ⟨p, _, program, gives, ?_, fun t _ => ⟨columns_plain t, _, shows_escape t.text, rfl⟩⟩
  rw [reported, reportCalls_gives gives]
  cases failure with
  | none => rfl
  | some failure => cases failure <;> rfl

/-- A string is listed with its warning, and so is the end of its line, before the next file turns out
to be missing. -/
theorem run_list_missing :
    let args := ["-f", "/lib/a.awk", "-f../b.awk", "rest"]
    let selection := Selection.files ["/lib/a.awk", "../b.awk"]
    let system := FileSystem.ofList [("/lib/a.awk", ascii "\"\\q\"\n\n")]
    let stdin := OpenFile.ofBytes []
    let listing := "1\tstring\tstring\tq\n1\tnewline\tnewline\t\\n\n"
    let notes := "/lib/a.awk: 1: warning: '\\q' treated as plain 'q'\n" ++
      "zawk: can't open ../b.awk: No such file or directory (os error 2)\n"
    parse args = .list selection false ∧ "-p" ∉ args ∧
      run args system stdin = ⟨2, listing, notes⟩ ∧
      ∃ p r, selection.program system stdin = .ok p ∧ (Scanner.ofProgram p).Gives r ∧
        String.join (r.tokens.map fun t => "\t".intercalate t.columns ++ "\n") = listing := by
  intro args selection system stdin listing notes
  have selects : parse args = .list selection false := by decide +kernel
  have quiet : "-p" ∉ args := by decide
  have printed : run args system stdin = ⟨2, listing, notes⟩ := by decide +kernel
  obtain ⟨p, r, program, gives, reported, _⟩ := run_list selects quiet system stdin
  exact ⟨selects, quiet, printed, p, r, program, gives,
    congrArg Report.stdout (reported.symm.trans printed)⟩

end CommandLine

end AwkCore
