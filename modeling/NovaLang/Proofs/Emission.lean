import NovaLang.Proofs.Endings
import NovaLang.Proofs.Json.Controls
import NovaLang.Proofs.Node.Phrases

namespace NovaLang

open Grammar Phrase

/-! # Tree files run as their scripts

A script without static errors can be written as a tree file. Running that file prints,
reports and logs what running the script does, and ends with the same status.
-/

/-! ## Text written and read again -/

theorem Files.decode?_write (style : Json.Style) (j : Json) :
    Files.decode? (Json.write style j).toUTF8 = some (Json.write style j) := by
  have hvalid : (Json.write style j).toUTF8.IsValidUTF8 := (Json.write style j).isValidUTF8
  have htext : String.fromUTF8? (Json.write style j).toUTF8 = some (Json.write style j) :=
    dif_pos hvalid
  rw [Files.decode?, htext, Option.map_some, Json.unifyLines_eq_self (Json.clean_write style j),
    String.ofList_toList]

namespace CommandLine

/-- The text of a program's JSON is read as that program. -/
theorem readTree_write {program : List Node} (hjson : (Node.programToJson program).Legible)
    (hprogram : Node.programOfJson (Node.programToJson program) = .ok program)
    (style : Json.Style) : readTree (Json.write style (Node.programToJson program)) = .ok program := by
  unfold readTree
  simp only [Json.read_write style hjson, hprogram]

/-! ## The log -/

/-- The text that is read at a path. -/
theorem withText_eq {files : Files} {name text : String} {content : ByteArray}
    (hfile : files.find (Path.ofString name) = .file content)
    (htext : Files.decode? content = some text) (next : String → Outcome) :
    withText files name next = next text := by
  unfold withText
  simp only [hfile, htext]

theorem writable_log {files : Files} (h : files.find logFile ≠ .directory) :
    files.Writable logFile :=
  Files.writable_name (by decide) (by cbv) (by decide) (by decide) h

theorem resolve_log : logFile.resolve.toString = "debug.txt" := rfl

/-- What is done with a log can be told from what is done with the files it leaves. -/
theorem withLog_congr {files : Files} {settings : Settings} {next next' : Files → Outcome}
    (hquiet : settings.verbosity = 0 → next files = next' files)
    (hlog : settings.verbosity ≠ 0 → files.Writable logFile →
      next (files.write logFile "") = next' (files.write logFile "")) :
    withLog files settings next = withLog files settings next' := by
  unfold withLog withWritten
  split
  · exact hquiet ‹_›
  · have hwritable := @writable_log files
    cases hfind : files.find logFile with
    | directory | tooLong => rfl
    | file | missing => exact hlog ‹_› (hwritable (by rw [hfind]; nofun))

/-- What is seen of an outcome: the status, what is printed and reported, and the log. -/
def Outcome.seen (o : Outcome) : Except Crash Nat × String × String × Files.Found :=
  (o.status, o.out, o.err, o.files.find logFile)

theorem find_log_write (files : Files) (text : String) :
    (files.write logFile text).find logFile = .file text.toUTF8 := by
  have hname : (files.write logFile text).find logFile = _ :=
    Files.find_name (by decide) (by cbv) (by decide)
  rw [hname, Files.get?_write, if_pos resolve_log]

theorem seen_ran {files files' : Files} (h : files.find logFile = files'.find logFile)
    (outcome : Except Session.Halt Bool) (s : Session) :
    (ran files outcome s).seen = (ran files' outcome s).seen := by
  unfold ran ended Outcome.seen
  cases s.machine.logText? with
  | some text => simp only [find_log_write]
  | none => simp only [h]

/-- Runs a program in a new session, with the log it is to have. -/
def runLogged (files : Files) (verbosity rounds : Nat) (clock : Float) (program : List Node) :
    Outcome :=
  withLog files { verbosity } fun files =>
    let (outcome, s) :=
      (Session.new Native.standard verbosity clock {}).interpret rounds program
    ran files outcome s

/-- Of the files only what lies at the path of the log has to do with what is seen of a run. -/
theorem seen_runLogged {files files' : Files} (h : files.find logFile = files'.find logFile)
    (verbosity rounds : Nat) (clock : Float) (program : List Node) :
    (runLogged files verbosity rounds clock program).seen =
      (runLogged files' verbosity rounds clock program).seen := by
  unfold runLogged withLog
  split
  · exact seen_ran h _ _
  · unfold withWritten
    rw [← h]
    cases hfind : files.find logFile with
    | directory | tooLong => simp only [Outcome.seen, plain, ← h]
    | file | missing => exact seen_ran ((find_log_write _ _).trans (find_log_write _ _).symm) _ _

/-! ## The three commands -/

/-- The arguments ask for a command, with a front end and a verbosity. -/
def Asks (arguments : List String) (command : Command) (f : FrontEnd) (verbosity : Nat) : Prop :=
  ∃ settings, Settings.ofArguments arguments = .ok settings ∧ settings.command = command ∧
    settings.frontEnd = .known f ∧ settings.verbosity = verbosity

/-- The path of the tree file beside a source file. -/
def treeFile (path : String) : Path := (Path.ofString path).addSuffix ".ast.json"

section

variable {arguments : List String} {path source : String} {f : FrontEnd} {verbosity rounds : Nat}
  {files : Files} {content : ByteArray} {program : List Node} {input : String} {clock : Float}

theorem Asks.perform_eq {command : Command} (h : Asks arguments command f verbosity) :
    ∃ settings : Settings, settings.frontEnd = .known f ∧ settings.verbosity = verbosity ∧
      ∀ files input rounds clock, perform arguments files input rounds clock =
        run command settings files input rounds clock := by
  obtain ⟨settings, hsettings, rfl, hfrontEnd, hverbosity⟩ := h
  refine ⟨settings, hfrontEnd, hverbosity, fun files input rounds clock => ?_⟩
  unfold perform
  rw [hsettings]

/-- A source file is written as a tree file unless it has static errors. -/
theorem perform_emitTree (hasks : Asks arguments (.emitTree path) f verbosity)
    (hfile : files.find (Path.ofString path) = .file content)
    (hsource : Files.decode? content = some source) :
    perform arguments files input rounds clock =
      if (f.read source {}).2.hadError then
        { plain files (.ok statusStatic) with err := (f.read source {}).2.text }
      else emitTree files (Path.ofString path) (f.read source {}).1 := by
  obtain ⟨settings, hfrontEnd, -, hperform⟩ := hasks.perform_eq
  rw [hperform, run, withText_eq hfile hsource, hfrontEnd]
  rfl

/-- Running a script without static errors is running its program, as long as opening the
log leaves the script as it is. -/
theorem perform_runScript (hasks : Asks arguments (.runScript path) f verbosity)
    (hfile : files.find (Path.ofString path) = .file content)
    (hsource : Files.decode? content = some source)
    (hread : f.read source {} = (program, {}))
    (hlog : verbosity ≠ 0 → (Path.ofString path).resolve.toString ≠ logFile.resolve.toString) :
    perform arguments files input rounds clock =
      runLogged files verbosity rounds clock program := by
  obtain ⟨settings, hfrontEnd, rfl, hperform⟩ := hasks.perform_eq
  -- reading reports nothing, so the program is run
  have hsession : (newSession settings clock).runChosen rounds settings.frontEnd source =
      (Session.new Native.standard settings.verbosity clock {}).interpret rounds program := by
    rw [hfrontEnd, newSession, Session.runChosen, Session.runSource, Session.new]
    dsimp only
    rw [hread]
    rfl
  rw [hperform, run]
  refine withLog_congr (fun _ => ?_) fun hverbose hwritable => ?_
  · rw [withText_eq hfile hsource, hsession]
  · have hkept := hwritable.find_write_of_ne "" (hlog hverbose)
    rw [withText_eq (hkept.trans hfile) hsource, hsession]

/-- Running a tree file is running the program that it holds. -/
theorem perform_runTree {text : String} (hasks : Asks arguments (.runTree path) f verbosity)
    (hfile : files.find (Path.ofString path) = .file content)
    (htext : Files.decode? content = some text) (hread : readTree text = .ok program) :
    perform arguments files input rounds clock =
      runLogged files verbosity rounds clock program := by
  obtain ⟨settings, -, rfl, hperform⟩ := hasks.perform_eq
  rw [hperform, run, withText_eq hfile htext, hread]
  rfl

end

/-! ## The tree file -/

theorem append_ne_self {s suffix : String} (h : suffix ≠ "") : s ≠ s ++ suffix := by
  intro heq
  have hlist := congrArg String.toList heq
  rw [String.toList_append] at hlist
  exact h (String.toList_eq_nil_iff.mp (List.self_eq_append_right.mp hlist))

/-- The log is not a tree file. -/
theorem log_ne_treeFile (s : String) : logFile.resolve.toString ≠ s ++ ".ast.json" := by
  intro heq
  have hlist := congrArg String.toList (resolve_log.symm.trans heq)
  rw [String.toList_append] at hlist
  have happend : [] ++ "debug.txt".toList = s.toList ++ ".ast.json".toList := hlist
  have hsuffix : "debug.txt".toList = ".ast.json".toList :=
    (List.append_inj' happend (by decide)).2
  exact absurd hsuffix (by decide)

/-- The path can be opened to write a file there. -/
def Openable (files : Files) (p : Path) : Prop :=
  (∃ old, files.find p = .file old) ∨ files.find p = .missing

/-- A plain name can be opened where no directory has it. -/
theorem openable_name {files : Files} {name : String} (hdots : name ≠ "..")
    (hnull : name.contains '\x00' = false) (hsize : name.utf8ByteSize ≤ Files.maxName)
    (hdirectory : files.isDirectory name = false) : Openable files ⟨"", [name]⟩ := by
  unfold Openable
  rw [Files.find_name hdots hnull hsize, hdirectory]
  cases Keyed.get? files.contents name with
  | some content => exact .inl ⟨content, rfl⟩
  | none => exact .inr rfl

/-- The files with the tree file of a program beside its source file. -/
def withTree (files : Files) (path : String) (program : List Node) : Files :=
  files.write (treeFile path) (Json.write .indented (Node.programToJson program))

section

variable {files : Files} {path : String} {content : ByteArray}

/-- The tree file of a program is written where it can be opened. -/
theorem emitTree_eq (hopen : Openable files (treeFile path)) {program : List Node}
    (hshort : (Node.programToJson program).Short) :
    emitTree files (Path.ofString path) program =
      { plain (withTree files path program) (.ok 0) with
        out := (treeFile path).toString ++ "\n" } := by
  have hpath : (Path.ofString path).addSuffix ".ast.json" = treeFile path := rfl
  obtain ⟨hok, htext⟩ := Json.writing_of_short .indented hshort
  unfold emitTree withWritten
  dsimp only
  rw [hpath, hok, htext]
  rcases hopen with ⟨old, hold⟩ | hmissing
  · rw [hold]
    rfl
  · rw [hmissing]
    rfl

variable (hfile : files.find (Path.ofString path) = .file content)
  (hopen : Openable files (treeFile path)) (program : List Node)

include hfile hopen

/-- Beside a script a tree file can be written in the directories that there are. -/
theorem treeFile_leads :
    ∃ dirs name, files.Leads (treeFile path) dirs name ∧ files.Writable (treeFile path) ∧
      (treeFile path).resolve.toString =
        (Path.ofString path).resolve.toString ++ ".ast.json" := by
  obtain ⟨dirs, name, hleads⟩ := Files.leads_of_find hfile
  have hfound : files.find (treeFile path) ≠ .tooLong ∧
      files.find (treeFile path) ≠ .directory := by
    rcases hopen with ⟨old, hold⟩ | hmissing
    · rw [hold]
      exact ⟨nofun, nofun⟩
    · rw [hmissing]
      exact ⟨nofun, nofun⟩
  have htree : files.Leads (treeFile path) dirs (name ++ ".ast.json") :=
    hleads.addSuffix (by decide) (by decide) hfound.1
  exact ⟨dirs, _, htree, hleads.writable_addSuffix hfile htree (by decide) hfound.2,
    hleads.resolve_addSuffix htree⟩

theorem find_withTree : (withTree files path program).find (treeFile path) =
    .file (Json.write .indented (Node.programToJson program)).toUTF8 := by
  obtain ⟨dirs, name, hleads, hwritable, -⟩ := treeFile_leads hfile hopen
  exact hleads.find_write hwritable _

theorem find_withTree_of_ne {q : Path}
    (hne : q.resolve.toString ≠ (treeFile path).resolve.toString) :
    (withTree files path program).find q = files.find q := by
  obtain ⟨-, -, -, hwritable, -⟩ := treeFile_leads hfile hopen
  exact hwritable.find_write_of_ne _ hne

/-- The script is left as it is. -/
theorem find_script_withTree :
    (withTree files path program).find (Path.ofString path) = .file content := by
  obtain ⟨-, -, -, -, hresolve⟩ := treeFile_leads hfile hopen
  refine (find_withTree_of_ne hfile hopen program ?_).trans hfile
  rw [hresolve]
  exact append_ne_self (by decide)

/-- The log is left as it is. -/
theorem find_log_withTree :
    (withTree files path program).find logFile = files.find logFile := by
  obtain ⟨-, -, -, -, hresolve⟩ := treeFile_leads hfile hopen
  refine find_withTree_of_ne hfile hopen program ?_
  rw [hresolve]
  exact log_ne_treeFile _

end

/-- A text without static errors is read as a program that its tree file holds. -/
theorem readTree_of_read {f : FrontEnd} {source : String}
    (hquiet : (f.read source {}).2.hadError = false)
    (hlines : lastLine source < 10 ^ Json.maxDigits) :
    ∃ program, f.read source {} = (program, {}) ∧ (Node.programToJson program).Short ∧
      readTree (Json.write .indented (Node.programToJson program)) = .ok program := by
  rcases f.read_lexemes source {} with ⟨ls, hls, hprogram, hreport⟩ | ⟨ds, hds, hreport⟩
  · obtain ⟨hjson, hback⟩ := hprogram.read_back hls (by decide) hlines
    exact ⟨_, Prod.ext rfl hreport, hjson.short, readTree_write hjson hback .indented⟩
  · rw [hreport, Report.hadError_addAll _ hds] at hquiet
    cases hquiet

/-- A script without static errors is written as a tree file, and running that file is
running its program. -/
theorem perform_emitted {files : Files} {path treeName source : String} {content : ByteArray}
    {f g : FrontEnd} {level verbosity : Nat} {emitArguments treeArguments : List String}
    (hemit : Asks emitArguments (.emitTree path) f level)
    (htree : Asks treeArguments (.runTree treeName) g verbosity)
    (hname : Path.ofString treeName = treeFile path)
    (hfile : files.find (Path.ofString path) = .file content)
    (hsource : Files.decode? content = some source)
    (hquiet : (f.read source {}).2.hadError = false) (hopen : Openable files (treeFile path))
    (hlines : lastLine source < 10 ^ Json.maxDigits) :
    ∃ program, f.read source {} = (program, {}) ∧ (Node.programToJson program).Short ∧
      (∀ input rounds clock, perform emitArguments files input rounds clock =
        { plain (withTree files path program) (.ok 0) with
          out := (treeFile path).toString ++ "\n" }) ∧
      ∀ input rounds clock,
        perform treeArguments (withTree files path program) input rounds clock =
          runLogged (withTree files path program) verbosity rounds clock program := by
  obtain ⟨program, hread, hshort, hback⟩ := readTree_of_read hquiet hlines
  refine ⟨program, hread, hshort, fun input rounds clock => ?_, fun input rounds clock => ?_⟩
  · rw [perform_emitTree hemit hfile hsource, hread, ← emitTree_eq hopen hshort]
    rfl
  · have hwritten := find_withTree hfile hopen program
    exact perform_runTree htree (hname ▸ hwritten) (Files.decode?_write _ _) hback

/-- **Tree files run as their scripts.** A script with static errors is not written as a
tree file. Any other script is, where the tree file can be opened; and running that file
then does what running the script does, with the same log, unless the script itself is
overwritten by the log, or it has so many lines that their numbers have no text. -/
theorem emitted_tree_runs_as_script {files : Files} {path treeName source : String}
    {content : ByteArray} {f g : FrontEnd} {level verbosity : Nat}
    {emitArguments runArguments treeArguments : List String}
    (hemit : Asks emitArguments (.emitTree path) f level)
    (hrun : Asks runArguments (.runScript path) f verbosity)
    (htree : Asks treeArguments (.runTree treeName) g verbosity)
    (hname : Path.ofString treeName = treeFile path)
    (hfile : files.find (Path.ofString path) = .file content)
    (hsource : Files.decode? content = some source) :
    ((f.read source {}).2.hadError = true → ∀ input rounds clock,
      perform emitArguments files input rounds clock =
        { plain files (.ok 65) with err := (f.read source {}).2.text }) ∧
    ((f.read source {}).2.hadError = false → Openable files (treeFile path) →
      (verbosity ≠ 0 → (Path.ofString path).resolve.toString ≠ logFile.resolve.toString) →
      lastLine source < 10 ^ Json.maxDigits →
      ∃ files' : Files,
        (∀ input rounds clock, perform emitArguments files input rounds clock =
          { plain files' (.ok 0) with out := (treeFile path).toString ++ "\n" }) ∧
        (∃ text, Json.dump .indented (Node.programToJson (f.read source {}).1) = .ok text ∧
          files'.find (treeFile path) = .file text.toUTF8) ∧
        (∀ q : Path, q.resolve.toString ≠ (treeFile path).resolve.toString →
          files'.find q = files.find q) ∧
        ∀ input rounds clock,
          perform treeArguments files' input rounds clock =
            perform runArguments files' input rounds clock ∧
          (perform treeArguments files' input rounds clock).seen =
            (perform runArguments files input rounds clock).seen) := by
  refine ⟨fun herror input rounds clock => ?_, fun hquiet hopen hlog hlines => ?_⟩
  · rw [perform_emitTree hemit hfile hsource, if_pos herror]
    rfl
  obtain ⟨program, hread, hshort, hemitted, htreeRun⟩ :=
    perform_emitted hemit htree hname hfile hsource hquiet hopen hlines
  refine ⟨withTree files path program, hemitted, ?_,
    fun q => find_withTree_of_ne hfile hopen program, fun input rounds clock => ?_⟩
  · rw [hread]
    exact ⟨_, Json.dump_of_short .indented hshort, find_withTree hfile hopen program⟩
  · -- all three runs are of the same program, in a session that starts with the same log
    have hscript := find_script_withTree hfile hopen program
    have hscriptRun : perform runArguments (withTree files path program) input rounds clock =
        runLogged (withTree files path program) verbosity rounds clock program :=
      perform_runScript hrun hscript hsource hread hlog
    have hbefore : perform runArguments files input rounds clock =
        runLogged files verbosity rounds clock program :=
      perform_runScript hrun hfile hsource hread hlog
    refine ⟨(htreeRun input rounds clock).trans hscriptRun.symm, ?_⟩
    rw [htreeRun, hbefore]
    exact seen_runLogged (find_log_withTree hfile hopen program) verbosity rounds clock program

/-- A script that counts to two. -/
def countScript : String := "for (var i = 0; i < 2; i = i + 1) print i;"

/-- A directory with that script in it. -/
def countFiles : Files := { contents := [("count", countScript.toUTF8)] }

theorem emitted_tree_runs_as_script_count :
    ∃ files' : Files,
      perform ["--emit-ast", "count"] countFiles "" 9 0 =
        { plain files' (.ok 0) with out := "count.ast.json\n" } ∧
      perform ["-v", "--ast", "count.ast.json"] files' "" 9 0 =
        perform ["-v", "count"] files' "" 9 0 ∧
      (perform ["-v", "--ast", "count.ast.json"] files' "" 9 0).seen =
        (perform ["-v", "count"] countFiles "" 9 0).seen := by
  have hpath : Path.ofString "count" = ⟨"", ["count"]⟩ :=
    Path.ofString_name (by decide) (by decide) (by decide)
  have htreePath : Path.ofString "count.ast.json" = ⟨"", ["count.ast.json"]⟩ :=
    Path.ofString_name (by decide) (by decide) (by decide)
  have htreeFile : treeFile "count" = ⟨"", ["count.ast.json"]⟩ := by rw [treeFile, hpath]; rfl
  have hemit : Asks ["--emit-ast", "count"] (.emitTree "count") .descent 0 :=
    ⟨{ mode := some (.emitAst, "count") }, by decide +kernel, by decide +kernel, rfl, rfl⟩
  have hrun : Asks ["-v", "count"] (.runScript "count") .descent 1 :=
    ⟨{ verbosity := 1, program := some "count" }, by decide +kernel, by decide +kernel, rfl, rfl⟩
  have htree : Asks ["-v", "--ast", "count.ast.json"] (.runTree "count.ast.json") .descent 1 :=
    ⟨{ verbosity := 1, mode := some (.ast, "count.ast.json") }, by decide +kernel,
      by decide +kernel, rfl, rfl⟩
  have hfile : countFiles.find (Path.ofString "count") = .file countScript.toUTF8 := by
    have hget : Keyed.get? countFiles.contents "count" = some countScript.toUTF8 := by
      decide +kernel
    rw [hpath, Files.find_name (by decide) (by cbv) (by decide), hget]
  have hopen : Openable countFiles (treeFile "count") := by
    rw [htreeFile]
    exact openable_name (by decide) (by cbv) (by decide) (by decide +kernel)
  have hlog : (Path.ofString "count").resolve.toString ≠ logFile.resolve.toString := by
    rw [hpath]
    decide +kernel
  have hlines : lastLine countScript < 10 ^ Json.maxDigits :=
    one_lt_pow₀ (by decide) (by decide)
  have hsource : Files.decode? countScript.toUTF8 = some countScript := by decide +kernel
  obtain ⟨-, hemitted⟩ := emitted_tree_runs_as_script hemit hrun htree
    (htreePath.trans htreeFile.symm) hfile hsource
  obtain ⟨files', hperform, -, -, hruns⟩ :=
    hemitted (by decide +kernel) hopen (fun _ => hlog) hlines
  refine ⟨files', ?_, (hruns _ _ _).1, (hruns _ _ _).2⟩
  rw [hperform, htreeFile]
  rfl

/-! ## Where tree files do not run as their scripts -/

theorem find_log {files : Files} {content : ByteArray}
    (h : Keyed.get? files.contents "debug.txt" = some content) :
    files.find logFile = .file content := by
  have hname : files.find logFile = _ := Files.find_name (by decide) (by cbv) (by decide)
  rw [hname, h]

/-- The log is emptied before it is read as a script. -/
theorem perform_log {arguments : List String} {f : FrontEnd} {verbosity rounds : Nat}
    {files : Files} {content : ByteArray} {input : String} {clock : Float}
    (hasks : Asks arguments (.runScript "debug.txt") f verbosity) (hverbose : verbosity ≠ 0)
    (hget : Keyed.get? files.contents "debug.txt" = some content) :
    perform arguments files input rounds clock =
      ran (files.write logFile "")
        ((Session.new Native.standard verbosity clock {}).runSource rounds f "").1
        ((Session.new Native.standard verbosity clock {}).runSource rounds f "").2 := by
  obtain ⟨settings, hfrontEnd, rfl, hperform⟩ := hasks.perform_eq
  have hpath : Path.ofString "debug.txt" = logFile :=
    Path.ofString_name (by decide) (by decide) (by decide)
  have hempty : Files.decode? "".toUTF8 = some "" := rfl
  have hread : (files.write logFile "").find (Path.ofString "debug.txt") = .file "".toUTF8 :=
    hpath ▸ find_log_write files ""
  rw [hperform, run, withLog, if_neg hverbose, withWritten, find_log hget]
  dsimp only
  rw [withText_eq hread hempty, hfrontEnd]
  rfl

/-- A directory with a script in it that has the name of the log. -/
def logScriptFiles : Files := { contents := [("debug.txt", "print 1;".toUTF8)] }

theorem out_runLogged {files : Files} {content : ByteArray} {verbosity : Nat}
    (hfind : files.find logFile = .file content) (hverbose : verbosity ≠ 0) (rounds : Nat)
    (clock : Float) (program : List Node) :
    (runLogged files verbosity rounds clock program).out =
      ((Session.new Native.standard verbosity clock {}).interpret rounds
        program).2.machine.out := by
  rw [runLogged, withLog, if_neg hverbose, withWritten, hfind]
  rfl

/-- A directory where the name of the tree file of a script is taken by a directory. -/
def takenFiles : Files :=
  { contents := [("a", "print 1;".toUTF8), ("a.ast.json/b", "".toUTF8)] }

theorem not_emitted_taken :
    (perform ["--emit-ast", "a"] takenFiles "" 9 0).status = .error .isDirectory := by
  have hpath : Path.ofString "a" = ⟨"", ["a"]⟩ :=
    Path.ofString_name (by decide) (by decide) (by decide)
  have htreeFile : (Path.ofString "a").addSuffix ".ast.json" = ⟨"", ["a.ast.json"]⟩ := by
    rw [hpath]
    rfl
  have hemit : Asks ["--emit-ast", "a"] (.emitTree "a") .descent 0 :=
    ⟨{ mode := some (.emitAst, "a") }, rfl, rfl, rfl, rfl⟩
  have hget : Keyed.get? takenFiles.contents "a" = some "print 1;".toUTF8 := rfl
  have hfile : takenFiles.find (Path.ofString "a") = .file "print 1;".toUTF8 := by
    rw [hpath, Files.find_name (by decide) (by cbv) (by decide), hget]
  have hsource : Files.decode? "print 1;".toUTF8 = some "print 1;" := rfl
  have hquiet : (FrontEnd.read .descent "print 1;" {}).2.hadError = false := rfl
  have hnone : Keyed.get? takenFiles.contents "a.ast.json" = none := rfl
  have htaken : takenFiles.isDirectory "a.ast.json" = true := rfl
  have hfound : takenFiles.find ⟨"", ["a.ast.json"]⟩ = .directory := by
    rw [Files.find_name (by decide) (by cbv) (by decide), hnone, htaken]
    rfl
  rw [perform_emitTree hemit hfile hsource, hquiet, if_neg Bool.false_ne_true, emitTree, htreeFile,
    withWritten, hfound]
  rfl

/-- With a log, a script that has the name of the log is run as an empty one, but its tree
file is run as it was. Where the name of the tree file is taken, none is written. -/
theorem not_emitted_tree_runs_as_script :
    ((perform ["--emit-ast", "debug.txt"] logScriptFiles "" 9 0).status = .ok 0 ∧
      (perform ["-v", "--ast", "debug.txt.ast.json"]
        (perform ["--emit-ast", "debug.txt"] logScriptFiles "" 9 0).files "" 9 0).out = "1\n" ∧
      (perform ["debug.txt", "-v"] logScriptFiles "" 9 0).out = "") ∧
    (perform ["--emit-ast", "a"] takenFiles "" 9 0).status = .error .isDirectory := by
  have hpath : Path.ofString "debug.txt" = logFile :=
    Path.ofString_name (by decide) (by decide) (by decide)
  have htreePath : Path.ofString "debug.txt.ast.json" = ⟨"", ["debug.txt.ast.json"]⟩ :=
    Path.ofString_name (by decide) (by decide) (by decide)
  have htreeFile : treeFile "debug.txt" = ⟨"", ["debug.txt.ast.json"]⟩ := by
    rw [treeFile, hpath]
    rfl
  have hemit : Asks ["--emit-ast", "debug.txt"] (.emitTree "debug.txt") .descent 0 :=
    ⟨{ mode := some (.emitAst, "debug.txt") }, by decide +kernel, by decide +kernel, rfl, rfl⟩
  have htree : Asks ["-v", "--ast", "debug.txt.ast.json"] (.runTree "debug.txt.ast.json")
      .descent 1 :=
    ⟨{ verbosity := 1, mode := some (.ast, "debug.txt.ast.json") }, by decide +kernel,
      by decide +kernel, rfl, rfl⟩
  have hrun : Asks ["debug.txt", "-v"] (.runScript "debug.txt") .descent 1 :=
    ⟨{ verbosity := 1, program := some "debug.txt" }, by decide +kernel, by decide +kernel,
      rfl, rfl⟩
  have hget : Keyed.get? logScriptFiles.contents "debug.txt" = some "print 1;".toUTF8 := by
    decide +kernel
  have hfile : logScriptFiles.find (Path.ofString "debug.txt") = .file "print 1;".toUTF8 :=
    hpath ▸ find_log hget
  have hopen : Openable logScriptFiles (treeFile "debug.txt") := by
    rw [htreeFile]
    exact openable_name (by decide) (by cbv) (by decide) (by decide +kernel)
  have hsource : Files.decode? "print 1;".toUTF8 = some "print 1;" := by decide +kernel
  obtain ⟨program, hread, -, hemitted, htreeRun⟩ := perform_emitted hemit htree
    (htreePath.trans htreeFile.symm) hfile hsource (by decide +kernel) hopen
    (one_lt_pow₀ (by decide) (by decide))
  have hprogram : program = [.print (.literal (.number 1))] :=
    (congrArg Prod.fst hread).symm.trans (by decide +kernel)
  have hlog : (withTree logScriptFiles "debug.txt" program).find logFile =
      .file "print 1;".toUTF8 :=
    (find_log_withTree hfile hopen program).trans (find_log hget)
  refine ⟨⟨?_, ?_, ?_⟩, not_emitted_taken⟩
  · rw [hemitted]
    rfl
  · rw [hemitted]
    dsimp only [plain]
    rw [htreeRun, out_runLogged hlog (by decide), hprogram]
    decide +kernel
  · rw [perform_log hrun (by decide) hget]
    decide +kernel

end CommandLine

end NovaLang
