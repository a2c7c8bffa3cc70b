import Variability.Proofs.Composer.Finishing
import Variability.Proofs.DotConfig.Checking

/-
  A site at which every composition succeeds.

  The site has a source and a header below one directory and its
  destination in another one. Programs of the default
  configuration are found on the search path: the build is
  configured and traced, and the compiler tells what is included.
  Whatever was composed at the site before, with whatever options
  and in whatever order of the dependencies, it can be composed
  again with any trace of the source.

  Main declarations:
    * `Composer.site`, `Composer.siteSpace`
    * `Composer.IsSite`, `Composer.Works`
    * `Composer.IsSite.compose`
-/

namespace Variability

namespace Composer

variable {α β : Type}
variable {c c' d : Composer}
variable {w w' v : Workspace}
variable {facts : Except FileError String}

------------------------------------------------------------
-- A Site
------------------------------------------------------------

/- Where the options of the site are chosen, and how. -/
def siteConfig : Path :=
  Strategy.configPath ⟨"/source"⟩

def switch (on : Bool) : Features :=
  [("X", on)]

def switchText (on : Bool) : String :=
  DotConfig.optionLine "X" on ++ "\n"

/- Whether the option is chosen. -/
def isOn (t : FileTree) : Bool :=
  match t.readText siteConfig with
  | .ok text => text == switchText true
  | .error _ => false

/-
  A build that is configured and traced. What it would call is
  told by whether the option is chosen.
-/
def siteMake (trace : Bool → String) : Program := fun call t =>
  let output := if call.arguments = ["-in"] then trace (isOn t) else ""
  let files :=
    if call.arguments = ["defconfig"] then
      (FileTree.write siteConfig (Utf8.encode (switchText false)) t).2
    else
      t
  (⟨some 0, Utf8.encode output, []⟩, files)

/- What the compiler tells about the only source. -/
def siteRule : String :=
  "a.o: a.c b.h\n"

def siteCompiler : Program := fun _ t =>
  (⟨some 0, Utf8.encode siteRule, []⟩, t)

def siteMain : String :=
  "#include \"b.h\"\n#ifdef X\nint x;\n#endif\n"

def siteHeader : String :=
  "int y;\n"

/- The source is compiled where the option is chosen. -/
def siteFacts : String :=
  "\x7b\"a.c\": \"(assert CONFIG_X)\"\x7d"

def siteTree : FileTree where
  entries :=
    [(["out"], .directory), (["source"], .directory),
      (["source", ".config"],
        .file (Utf8.encode (switchText false))),
      (["source", "a.c"], .file (Utf8.encode siteMain)),
      (["source", "b.h"], .file (Utf8.encode siteHeader)),
      (["source", "facts"], .file (Utf8.encode siteFacts))]

/- The workspace, in which programs are called by bare names. -/
def siteSpace (trace : Bool → String) : Workspace where
  files := siteTree
  programs :=
    [(⟨"/bin/make"⟩, siteMake trace),
      (⟨"/bin/gcc"⟩, siteCompiler)]
  searchPath := [⟨"/bin"⟩]

/- A new composer of the site, with the programs of the default. -/
def site : Composer :=
  ofConfig
    { tmpDir := ⟨"/"⟩, fileConditions := some ⟨"/source/facts"⟩ }
    (.ofList ["X"])

/- A tree of the site, whatever was composed there before. -/
structure IsSiteTree (chosen : String) (t : FileTree) : Prop where
  source : t.entry? ["source"] = some .directory
  out : t.entry? ["out"] = some .directory
  config :
    t.entry? ["source", ".config"] =
      some (.file (Utf8.encode chosen))
  main :
    t.entry? ["source", "a.c"] = some (.file (Utf8.encode siteMain))
  header :
    t.entry? ["source", "b.h"] =
      some (.file (Utf8.encode siteHeader))
  facts :
    t.entry? ["source", "facts"] =
      some (.file (Utf8.encode siteFacts))
  free : ∀ name, t.IsEnd ["out", name]

structure IsSite
    (trace : Bool → String)
    (chosen : String)
    (w : Workspace) : Prop where
  tree : IsSiteTree chosen w.files
  programs_eq : w.programs = (siteSpace trace).programs
  searchPath_eq : w.searchPath = [⟨"/bin"⟩]
  cancelled_eq : w.cancelled = false

theorem isSiteTree_siteTree :
    IsSiteTree (switchText false) siteTree := by
  refine ⟨rfl, rfl, rfl, rfl, rfl, rfl, fun name entry hEntry => ?_⟩
  simp [FileTree.entry?, Dict.find?, siteTree] at hEntry

/- Site files are where they are. -/
theorem isPair_siteConfig :
    FileTree.IsPair siteConfig "source" ".config" := by
  constructor <;> decide

namespace IsSiteTree

variable {chosen : String}
variable {t : FileTree}

theorem readText_config
    (hTree : IsSiteTree chosen t) :
    t.readText siteConfig = .ok chosen := by
  apply FileTree.readText_of_read
  rw [FileTree.read,
    isPair_siteConfig.status_file hTree.source hTree.config]

theorem isOn_eq
    (hTree : IsSiteTree chosen t) :
    isOn t = (chosen == switchText true) := by
  rw [isOn, hTree.readText_config]

theorem status_source
    (hTree : IsSiteTree chosen t) :
    t.status ⟨"/source"⟩ = .ok .directory := by
  have hSteps : FileTree.stepsOf "/source" = ["source"] := by
    decide
  simp [FileTree.status, FileTree.resolve, FileTree.walk, hSteps,
    hTree.source, Path.isAbsolute]

/- The choice is written down. -/
theorem write_config
    (hTree : IsSiteTree chosen t)
    (text : String) :
    ∃ t', FileTree.write siteConfig (Utf8.encode text) t =
        (.ok (), t') ∧
      IsSiteTree text t' ∧ t.Retains t' := by
  have hTarget :
      t.fileToWrite siteConfig = .ok ["source", ".config"] := by
    rw [FileTree.fileToWrite,
      isPair_siteConfig.resolve_eq hTree.source,
      FileTree.walk_file (by decide) (by decide) hTree.config]
    rfl
  have hEnd := FileTree.isEnd_of_fileToWrite hTarget
  have hEntry := FileTree.entry?_withFile hEnd (Utf8.encode text)
  refine
    ⟨_, by rw [FileTree.write_apply, hTarget], ?_,
      FileTree.retains_withFile hEnd _⟩
  constructor
  case config => rw [hEntry, if_pos rfl]
  case free =>
    intro name entry hFree
    rw [hEntry, if_neg (by simp)] at hFree
    exact hTree.free name entry hFree
  all_goals rw [hEntry, if_neg (by decide)]
  exacts [hTree.source, hTree.out, hTree.main, hTree.header,
    hTree.facts]

/- Files below the destination belong to no part of the site. -/
theorem withOutput
    (hTree : IsSiteTree chosen t)
    (name : String)
    (content : List UInt8) :
    IsSiteTree chosen (t.withFile ["out", name] content) := by
  have hEntry := FileTree.entry?_withFile (hTree.free name) content
  constructor
  case free =>
    intro other entry hFree
    rw [hEntry] at hFree
    split at hFree
    · cases hFree
      exact ⟨content, rfl⟩
    · exact hTree.free other entry hFree
  all_goals rw [hEntry, if_neg (by simp)]
  exacts [hTree.source, hTree.out, hTree.config, hTree.main,
    hTree.header, hTree.facts]

end IsSiteTree

/- A workspace of the site after some work. -/
structure Works
    (trace : Bool → String)
    (chosen : String)
    (w w' : Workspace) : Prop where
  site : IsSite trace chosen w'
  retains : w.files.Retains w'.files

section Site

variable {trace : Bool → String}
variable {chosen : String}

theorem Works.trans
    {before : String}
    {w₁ w₂ : Workspace}
    (hFirst : Works trace before w w₁)
    (hSecond : Works trace chosen w₁ w₂) :
    Works trace chosen w w₂ :=
  ⟨hSecond.site, hFirst.retains.trans hSecond.retains⟩

/- The programs are found along the search path. -/
theorem IsSite.programOf_eq
    (hSite : IsSite trace chosen w)
    {call : Call}
    {program : Program}
    (hProgram :
      (call.program, program) ∈
        [("make", siteMake trace), ("gcc", siteCompiler)])
    (hDirectory : call.directory = ⟨"/source"⟩)
    (hZero : ∀ s ∈ call.texts, '\x00' ∉ s.toList) :
    Job.programOf w call = .ok program := by
  have hNone : ¬ (call.texts.any (·.contains '\x00')) = true := by
    simpa using hZero
  have hSource : w.files.status call.directory = .ok .directory := by
    rw [hDirectory, hSite.tree.status_source]
  let file (name : String) : Path :=
    ((⟨"/source"⟩ : Path).join
      ((⟨"/bin"⟩ : Path).join ⟨name⟩)).normalize
  have hMake : (⟨"/bin/make"⟩ : Path).same (file "make") = true := by
    decide
  have hOther : (⟨"/bin/make"⟩ : Path).same (file "gcc") = false := by
    decide
  have hCompiler :
      (⟨"/bin/gcc"⟩ : Path).same (file "gcc") = true := by
    decide
  have hFound : ∃ p, w.program? call = some (p, program) := by
    rw [Workspace.program?, hSite.searchPath_eq, hSite.programs_eq,
      Call.candidates, hDirectory]
    simp only [List.mem_cons, Prod.mk.injEq, List.not_mem_nil,
      or_false] at hProgram
    rcases hProgram with ⟨hName, rfl⟩ | ⟨hName, rfl⟩
    · rw [hName, if_neg (by simp), if_neg (by decide)]
      exact ⟨⟨"/bin/make"⟩, by simp [siteSpace, file, hMake]⟩
    · rw [hName, if_neg (by simp), if_neg (by decide)]
      exact
        ⟨⟨"/bin/gcc"⟩, by simp [siteSpace, file, hOther, hCompiler]⟩
  rcases hFound with ⟨p, hFound⟩
  rw [Job.programOf, if_neg hNone, hSource]
  dsimp only
  rw [hFound]

/- A call of make in the source tree. -/
structure IsMake (call : Call) : Prop where
  program_eq : call.program = "make"
  directory_eq : call.directory = ⟨"/source"⟩
  not_mem_zero : ∀ s ∈ call.texts, '\x00' ∉ s.toList

/- A call that does not ask for the default changes no files. -/
theorem IsSite.runChecked_make
    (hSite : IsSite trace chosen w)
    {call : Call}
    (hMake : IsMake call)
    (hOther : call.arguments ≠ ["defconfig"]) :
    ∃ report w',
      Job.runChecked call w = (.ok report, w') ∧
        Works trace chosen w w' ∧
        (call.arguments = ["-in"] →
          report.output = trace (chosen == switchText true)) := by
  have hProgram : Job.programOf w call = .ok (siteMake trace) :=
    hSite.programOf_eq (by simp [hMake.program_eq])
      hMake.directory_eq hMake.not_mem_zero
  have hRun :=
    Job.runChecked_of_programOf hSite.cancelled_eq hProgram rfl
  have hFiles : (siteMake trace call w.files).2 = w.files :=
    if_neg hOther
  rw [hFiles] at hRun
  refine
    ⟨_, _, hRun,
      ⟨⟨hSite.tree, hSite.programs_eq, hSite.searchPath_eq,
        hSite.cancelled_eq⟩, .refl _⟩, fun hTraced => ?_⟩
  have hOutput :
      (siteMake trace call w.files).1.output =
        Utf8.encode (trace (chosen == switchText true)) := by
    rw [siteMake, hSite.tree.isOn_eq, if_pos hTraced]
  rw [Report.ofOutcome, hOutput]
  exact Utf8.decodeLossy_encode _

/- The default is that the option is not chosen. -/
theorem IsSite.runChecked_default
    (hSite : IsSite trace chosen w)
    {call : Call}
    (hMake : IsMake call)
    (hDefault : call.arguments = ["defconfig"]) :
    ∃ report w',
      Job.runChecked call w = (.ok report, w') ∧
        Works trace (switchText false) w w' := by
  have hProgram : Job.programOf w call = .ok (siteMake trace) :=
    hSite.programOf_eq (by simp [hMake.program_eq])
      hMake.directory_eq hMake.not_mem_zero
  have hRun :=
    Job.runChecked_of_programOf hSite.cancelled_eq hProgram rfl
  rcases hSite.tree.write_config (switchText false) with
    ⟨t', hWrite, hTree, hRetains⟩
  have hFiles : (siteMake trace call w.files).2 = t' := by
    rw [siteMake, hWrite, if_pos hDefault]
  rw [hFiles] at hRun
  exact
    ⟨_, _, hRun,
      ⟨hTree, hSite.programs_eq, hSite.searchPath_eq,
        hSite.cancelled_eq⟩, hRetains⟩

/- The compiler tells its rule about each file. -/
theorem IsSite.scans
    (hSite : IsSite trace chosen w)
    (i : Inclusion)
    (hZero : ∀ s ∈ Scanner.arguments i, '\x00' ∉ s.toList) :
    ∃ w',
      Scanner.ofCompiler "gcc" i ⟨"/source"⟩ w =
        (.ok siteRule, w') ∧
      Works trace chosen w w' := by
  have hTexts :
      ∀ s ∈ "gcc" :: Scanner.arguments i ++ ["LANG", "C"],
        '\x00' ∉ s.toList := by
    have hOther :
        ∀ s ∈ ["gcc", "LANG", "C"], '\x00' ∉ s.toList := by
      decide
    intro s hMem
    by_cases hGiven : s ∈ Scanner.arguments i
    · exact hZero s hGiven
    · apply hOther s
      simp_all
  have hProgram :
      Job.programOf w
          ⟨"gcc", Scanner.arguments i, ⟨"/source"⟩,
            [("LANG", "C")]⟩ =
        .ok siteCompiler :=
    hSite.programOf_eq (by simp) rfl hTexts
  refine
    ⟨{ w with
        calls :=
          ⟨"gcc", Scanner.arguments i, ⟨"/source"⟩,
            [("LANG", "C")]⟩ :: w.calls },
      ?_, ⟨hSite.tree, hSite.programs_eq, hSite.searchPath_eq,
        hSite.cancelled_eq⟩, .refl _⟩
  rw [Scanner.ofCompiler,
    Job.bind_of_ok
      (Job.run_of_programOf hSite.cancelled_eq hProgram),
    if_pos (show Report.succeeded _ = true from rfl)]
  have hText : Utf8.decodeLossy (Utf8.encode siteRule) = siteRule :=
    Utf8.decodeLossy_encode _
  rw [← hText]
  rfl

/- The text of the configuration can be looked at. -/
theorem IsSite.look_config
    (hSite : IsSite trace chosen w) :
    Job.look siteConfig (·.readText siteConfig) w =
      (.ok chosen, w) :=
  Job.look_of_ok hSite.tree.readText_config

/- A composer of the site, whatever it has found out. -/
structure IsOfSite (c : Composer) : Prop where
  config_eq : c.config = site.config
  model_eq : c.model = site.model
  strategy_eq : c.strategy = site.strategy
  scanner_eq : c.scanner = site.scanner

theorem SameParts.isOfSite
    (hParts : c.SameParts c')
    (hOf : IsOfSite c) :
    IsOfSite c' :=
  ⟨hParts.config_eq.trans hOf.config_eq,
    hParts.model_eq.trans hOf.model_eq,
    hParts.strategy_eq.trans hOf.strategy_eq,
    hParts.scanner_eq.trans hOf.scanner_eq⟩

theorem IsOfSite.settings
    (hOf : IsOfSite c)
    (hOf' : IsOfSite d) :
    c.Matches d := by
  have hSelf : site.Matches site := matches_ofConfig _ _
  refine
    ⟨hOf.config_eq.trans hOf'.config_eq.symm,
      hOf.model_eq.trans hOf'.model_eq.symm, ?_, ?_⟩
  · rw [hOf.strategy_eq, hOf'.strategy_eq]
    exact hSelf.strategy
  · rw [hOf.scanner_eq, hOf'.scanner_eq]
    exact hSelf.scanner

theorem IsOfSite.sourceDir_eq
    (hOf : IsOfSite c) :
    c.sourceDir = ⟨"/source"⟩ := by
  have hSite : site.sourceDir = ⟨"/source"⟩ := by
    decide
  rw [← hSite, sourceDir, hOf.config_eq]
  rfl

theorem readOption?_switch (on : Bool) :
    DotConfig.readOption? (DotConfig.optionLine "X" on).toList =
      some ("X", on) :=
  DotConfig.readOption?_optionLine (by decide +kernel) on

theorem lines_switchText (on : Bool) :
    Text.lines (switchText on).toList =
      [(DotConfig.optionLine "X" on).toList] := by
  cases on <;> decide

theorem relevant_switch (on : Bool) :
    DotConfig.relevant Strategy.isArtifact (switch on) =
      switch on := by
  cases on <;> decide

/- The option is written down as asked for, and stays so. -/
theorem IsSite.write_switch
    (hSite : IsSite trace (switchText false) w)
    (on : Bool) :
    ∃ w', DotConfig.write siteConfig (switch on) Strategy.isArtifact
          w =
        (.ok (), w') ∧
      Works trace (switchText on) w w' := by
  have hFound : Dict.find? "X" (switch on) = some on := by
    cases on <;> decide
  have hRest : (switch on).filter (·.1 ≠ "X") = [] := by
    cases on <;> decide
  have hLine :
      DotConfig.overlayLines (switch on)
          [(DotConfig.optionLine "X" false).toList] =
        [DotConfig.optionLine "X" on] := by
    rw [DotConfig.overlayLines, readOption?_switch]
    dsimp only
    rw [hFound, hRest, DotConfig.overlayLines, String.ofList_toList]
    cases on <;> rfl
  have hOverlay :
      DotConfig.overlay (switch on) Strategy.isArtifact
          (switchText false) =
        switchText on := by
    rw [DotConfig.overlay, relevant_switch, lines_switchText, hLine]
    rfl
  rcases hSite.tree.write_config (switchText on) with
    ⟨t, hWrite, hTree, hRetains⟩
  refine
    ⟨{ w with files := t }, ?_,
      ⟨hTree, hSite.programs_eq, hSite.searchPath_eq,
        hSite.cancelled_eq⟩, hRetains⟩
  rw [DotConfig.write, Job.bind_of_ok hSite.look_config, hOverlay,
    Job.edit, hWrite]

theorem IsSite.verify_switch
    {on : Bool}
    (hSite : IsSite trace (switchText on) w) :
    ∃ w', DotConfig.verify siteConfig (switch on)
          Strategy.isArtifact w =
        (.ok [], w') ∧
      Works trace (switchText on) w w' := by
  have hNone :
      DotConfig.mismatches (switch on) Strategy.isArtifact
          (switchText on) =
        [] := by
    rw [DotConfig.mismatches, DotConfig.options, relevant_switch,
      lines_switchText, List.filterMap_cons, readOption?_switch]
    cases on <;> decide
  have hVerify :=
    DotConfig.verify_apply hSite.tree.readText_config (switch on)
      Strategy.isArtifact
  rw [hNone] at hVerify
  exact
    ⟨_, hVerify,
      ⟨hSite.tree, hSite.programs_eq, hSite.searchPath_eq,
        hSite.cancelled_eq⟩, .refl _⟩

/- The option is chosen as asked for. -/
theorem IsSite.configuring
    (hSite : IsSite trace chosen w)
    (hOf : IsOfSite c)
    (on : Bool) :
    ∃ w', c.configuring (switch on) w = (.ok (), w') ∧
      Works trace (switchText on) w w' := by
  have hMake (argument : String)
      (hZero : '\x00' ∉ argument.toList) :
      IsMake ⟨"make", [argument], ⟨"/source"⟩, [("LANG", "C")]⟩ := by
    refine ⟨rfl, rfl, ?_⟩
    simpa [Call.texts] using hZero
  have hMakes {argument : String} {v v' : Workspace} {report : Report}
      (hRun :
        Job.runChecked
            ⟨"make", [argument], ⟨"/source"⟩, [("LANG", "C")]⟩ v =
          (.ok report, v')) :
      Strategy.make "make" [argument] ⟨"/source"⟩ v =
        (.ok (), v') := by
    rw [Strategy.make, Job.bind_of_ok hRun]
    rfl
  rcases hSite.runChecked_make (hMake "distclean" (by decide))
    (by decide) with ⟨_, w₁, hClean, hWorks₁, -⟩
  rcases hWorks₁.site.runChecked_default
    (hMake "defconfig" (by decide)) rfl with
    ⟨_, w₂, hConfigure, hWorks₂⟩
  rcases hWorks₂.site.write_switch on with ⟨w₃, hWrite, hWorks₃⟩
  rcases hWorks₃.site.runChecked_make
    (hMake "oldconfig" (by decide)) (by decide) with
    ⟨_, w₄, hComplete, hWorks₄, -⟩
  rcases hWorks₄.site.verify_switch with ⟨w₅, hVerify, hWorks₅⟩
  refine
    ⟨w₅, ?_,
      (hWorks₁.trans hWorks₂).trans
        (hWorks₃.trans (hWorks₄.trans hWorks₅))⟩
  rw [Composer.configuring, hOf.sourceDir_eq, hOf.strategy_eq]
  change
    (Strategy.make "make" ["distclean"] _ >>= fun _ =>
      Strategy.make "make" ["defconfig"] _ >>= fun _ =>
        DotConfig.write siteConfig _ _ >>= fun _ =>
          Strategy.make "make" ["oldconfig"] _ >>= fun _ =>
            DotConfig.verify siteConfig _ _ >>= fun _ => _)
        w =
      _
  rw [Job.bind_of_ok (hMakes hClean),
    Job.bind_of_ok (hMakes hConfigure), Job.bind_of_ok hWrite,
    Job.bind_of_ok (hMakes hComplete), Job.bind_of_ok hVerify]
  rfl

/- What a trace of the site is about. -/
structure Traces
    (text : String)
    (compiled : List Inclusion)
    (found : List Dependency) : Prop where
  invocations :
    ∃ calls, Trace.invocations text = .ok (calls, []) ∧
      (calls.flatMap fun call =>
        Inclusion.ofInvocation call ⟨"/source"⟩ ⟨"/source"⟩) =
          compiled
  file_eq : ∀ i ∈ compiled, i.file = ⟨"a.c"⟩
  not_mem_zero :
    ∀ i ∈ compiled, ∀ s ∈ Scanner.arguments i, '\x00' ∉ s.toList
  found_eq :
    (compiled.flatMap fun i =>
        .compiled i :: MakeRule.dependencies i siteRule).foldl
      Dependency.insert [] =
        found

namespace IsSiteTree

variable {t : FileTree}

theorem resolve_main
    (hTree : IsSiteTree chosen t) :
    t.resolve true ⟨"/source/a.c"⟩ =
      .ok (.found ["source", "a.c"]
        (.file (Utf8.encode siteMain))) := by
  have hPair :
      FileTree.IsPair ⟨"/source/a.c"⟩ "source" "a.c" := by
    constructor <;> decide
  rw [hPair.resolve_eq hTree.source,
    FileTree.walk_file (by decide) (by decide) hTree.main]
  rfl

theorem resolve_header
    (hTree : IsSiteTree chosen t) :
    t.resolve true ⟨"/source/b.h"⟩ =
      .ok (.found ["source", "b.h"]
        (.file (Utf8.encode siteHeader))) := by
  have hPair :
      FileTree.IsPair ⟨"/source/b.h"⟩ "source" "b.h" := by
    constructor <;> decide
  rw [hPair.resolve_eq hTree.source,
    FileTree.walk_file (by decide) (by decide) hTree.header]
  rfl

theorem resolve_out
    (hTree : IsSiteTree chosen t)
    {follow : Bool} :
    t.resolve follow ⟨"/out"⟩ = .ok (.found ["out"] .directory) := by
  have hSteps : FileTree.stepsOf "/out" = ["out"] := by
    decide
  simp [FileTree.resolve, FileTree.walk, hSteps, hTree.out,
    Path.isAbsolute]

theorem exists?_main
    (hTree : IsSiteTree chosen t) :
    t.exists? ((⟨"/source"⟩ : Path).join ⟨"a.c"⟩) = true := by
  have hJoin :
      (⟨"/source"⟩ : Path).join ⟨"a.c"⟩ = ⟨"/source/a.c"⟩ := by
    decide
  rw [hJoin, FileTree.exists?, FileTree.status, hTree.resolve_main]
  rfl

end IsSiteTree

/- What files are compiled and included is found out. -/
theorem IsSite.resolving
    {compiled : List Inclusion}
    {found : List Dependency}
    (hSite : IsSite trace chosen w)
    (hOf : IsOfSite c)
    (hTraces :
      Traces (trace (chosen == switchText true)) compiled found) :
    ∃ w', c.resolving w = (.ok found, w') ∧
      Works trace chosen w w' := by
  have hMake :
      IsMake ⟨"make", ["-in"], ⟨"/source"⟩,
        [("LANG", "C"), ("CC", "gcc")]⟩ :=
    ⟨rfl, rfl, by decide⟩
  rcases hSite.runChecked_make hMake (by decide) with
    ⟨report, w₁, hRun, hWorks₁, hOutput⟩
  rcases hTraces.invocations with ⟨calls, hCalls, hCompiled⟩
  have hTrace :
      site.strategy.trace ⟨"/source"⟩ w =
        (.ok (trace (chosen == switchText true)), w₁) := by
    change Strategy.makeTraced "make" ["-in"] ⟨"/source"⟩ w = _
    rw [Strategy.makeTraced, Job.bind_of_ok hRun, ← hOutput rfl]
    rfl
  have hInvocations :
      invocations (trace (chosen == switchText true)) w₁ =
        (.ok calls, { w₁ with log := w₁.log ++ [] }) := by
    rw [invocations, hCalls]
    rfl
  have hWorks₂ :
      Works trace chosen w { w₁ with log := w₁.log ++ [] } :=
    ⟨⟨hWorks₁.site.tree, hWorks₁.site.programs_eq,
      hWorks₁.site.searchPath_eq, hWorks₁.site.cancelled_eq⟩,
      hWorks₁.retains⟩
  have hAnswers :
      ∀ i ∈ compiled, ∀ v, Works trace chosen w v →
        v.cancelled = false ∧
          v.files.exists? ((⟨"/source"⟩ : Path).join i.file) = true ∧
          ∃ v', Scanner.ofCompiler "gcc" i ⟨"/source"⟩ v =
              (.ok siteRule, v') ∧
            Works trace chosen w v' := by
    intro i hi v hWorks
    rcases hWorks.site.scans i (hTraces.not_mem_zero i hi) with
      ⟨v', hScan, hWorks'⟩
    rw [hTraces.file_eq i hi]
    exact
      ⟨hWorks.site.cancelled_eq, hWorks.site.tree.exists?_main, v',
        hScan, hWorks.trans hWorks'⟩
  rcases Scanner.resolveFrom_of_answers hAnswers hWorks₂ [] with
    ⟨w', hResolve, hWorks⟩
  refine ⟨w', ?_, hWorks⟩
  rw [Composer.resolving, hOf.sourceDir_eq, hOf.strategy_eq,
    hOf.scanner_eq, Job.bind_of_ok hTrace,
    Job.bind_of_ok hInvocations, hCompiled, ← hTraces.found_eq]
  exact hResolve

/- What is compiled or included at the site. -/
def OnSite (d : Dependency) : Prop :=
  d = .header ⟨"b.h"⟩ ∨ ∃ i, d = .compiled i ∧ i.file = ⟨"a.c"⟩

namespace OnSite

variable {d : Dependency}
variable {t : FileTree}

/- The original lies in the source tree, in all trees of the site. -/
theorem resolve_source (hOn : OnSite d) :
    ∃ name content, ∀ (chosen : String) (t : FileTree),
      IsSiteTree chosen t →
        t.resolve true ((⟨"/source"⟩ : Path).join d.file) =
          .ok (.found ["source", name] (.file content)) := by
  have hMain :
      (⟨"/source"⟩ : Path).join ⟨"a.c"⟩ = ⟨"/source/a.c"⟩ := by
    decide
  have hHeader :
      (⟨"/source"⟩ : Path).join ⟨"b.h"⟩ = ⟨"/source/b.h"⟩ := by
    decide
  rcases hOn with rfl | ⟨i, rfl, hFile⟩
  · rw [Dependency.file, hHeader]
    exact ⟨_, _, fun _ _ hTree => hTree.resolve_header⟩
  · rw [Dependency.file, hFile, hMain]
    exact ⟨_, _, fun _ _ hTree => hTree.resolve_main⟩

theorem status_eq
    {chosen' : String}
    {t' : FileTree}
    (hOn : OnSite d)
    (hTree : IsSiteTree chosen t)
    (hTree' : IsSiteTree chosen' t') :
    t.status ((⟨"/source"⟩ : Path).join d.file) =
      t'.status ((⟨"/source"⟩ : Path).join d.file) := by
  rcases hOn.resolve_source with ⟨name, content, hResolve⟩
  rw [FileTree.status, hResolve _ t hTree, FileTree.status,
    hResolve _ t' hTree']

/- The generated file lies right at the destination. -/
theorem components_target
    (hOn : OnSite d) :
    ∃ name, d.target.components = [.name name] ∧
      (Component.name name).IsPlain := by
  rcases hOn with rfl | ⟨i, rfl, hFile⟩
  · exact ⟨"b.h", by decide, by constructor <;> decide⟩
  · refine ⟨i.composedName, ?_, i.isPlain_composedName⟩
    have hDirectory : i.directoryComponents = [] := by
      rw [Inclusion.directoryComponents, hFile]
      decide
    rw [Dependency.target, i.components_composedPath, hDirectory,
      List.nil_append]

theorem goesOn_target
    (hOn : OnSite d) :
    ∃ name, (Component.name name).IsPlain ∧
      (⟨"/out"⟩ : Path).GoesOn ((⟨"/out"⟩ : Path).join d.target)
        [name] := by
  rcases hOn.components_target with ⟨name, hComponents, hPlain⟩
  have hZero :
      '\x00' ∉ d.target.text.toList ∧ d.target.IsTrimmed := by
    rcases hOn with rfl | ⟨i, rfl, hFile⟩
    · have hHeader : (Component.name "b.h").IsPlain := by
        constructor <;> decide
      exact ⟨by decide, Path.isTrimmed_of_isPlain hHeader⟩
    · exact
        ⟨Generation.zero_not_mem_composedPath
          (by rw [hFile]; decide),
          Generation.isTrimmed_composedPath i⟩
  have hNames : Path.AreNames d.target.components := by
    rw [hComponents]
    intro c hc
    cases List.mem_singleton.mp hc
    exact ⟨name, rfl, hPlain⟩
  have hGoesOn :=
    Generation.goesOn_join (⟨"/out"⟩ : Path) hNames
      (by rw [hComponents]; exact List.cons_ne_nil _ _) hZero.2
      hZero.1
  have hRel : d.target.names = [name] := by
    rw [Path.names, hComponents]
    rfl
  rw [hRel] at hGoesOn
  exact ⟨name, hPlain, hGoesOn⟩

theorem fileToWrite_target
    (hOn : OnSite d)
    (hTree : IsSiteTree chosen t) :
    ∃ name,
      t.fileToWrite ((⟨"/out"⟩ : Path).join d.target) =
        .ok ["out", name] := by
  rcases hOn.goesOn_target with ⟨name, hPlain, hGoesOn⟩
  rcases FileTree.ne_dots_of_isPlain hPlain with ⟨hHere, hUp⟩
  rcases FileTree.resolve_below hTree.resolve_out
    hGoesOn.components_eq hGoesOn.isTrimmed hGoesOn.ne_nil
    hGoesOn.not_mem_zero with ⟨links, hResolve⟩
  refine ⟨name, ?_⟩
  rw [FileTree.fileToWrite, hResolve]
  cases hEntry : t.entry? ["out", name] with
  | none =>
      rw [FileTree.walk_vacant hHere hUp hEntry]
      rfl
  | some entry =>
      rcases hTree.free name entry hEntry with ⟨content, rfl⟩
      rw [FileTree.walk_file hHere hUp hEntry]
      rfl

end OnSite

/- Trees of the site have the same originals. -/
theorem sameOriginals_site
    {chosen' : String}
    {t t' : FileTree}
    {found : List Dependency}
    (hOn : ∀ e ∈ found, OnSite e)
    (hTree : IsSiteTree chosen t)
    (hTree' : IsSiteTree chosen' t') :
    Generation.SameOriginals ⟨"/source"⟩ found t t' :=
  fun e he _ => (hOn e he).status_eq hTree hTree'

/- Each file is generated where no part of the site is. -/
theorem IsSite.writeOne
    {e : Dependency}
    (hSite : IsSite trace chosen w)
    (hOn : OnSite e) :
    ∃ w',
      Generation.writeOne ((⟨"/source"⟩ : Path).join e.file)
          ⟨"/out"⟩ e.file e w =
        (.ok (e.target, e.origin), w') ∧
      Works trace chosen w w' := by
  rcases hOn.fileToWrite_target hSite.tree with ⟨name, hNames⟩
  rcases hOn.resolve_source with ⟨original, content, hResolve⟩
  exact
    ⟨_, Generation.writeOne_of_resolve rfl hNames
        (hResolve _ _ hSite.tree) (by simp),
      ⟨hSite.tree.withOutput name _, hSite.programs_eq,
        hSite.searchPath_eq, hSite.cancelled_eq⟩,
      FileTree.retains_withFile (hSite.tree.free name) _⟩

/- The destination is a directory already. -/
theorem IsSite.makeDirectories
    (hSite : IsSite trace chosen w) :
    Job.edit ⟨"/out"⟩ (FileTree.makeDirectories ⟨"/out"⟩) w =
      (.ok (), w) := by
  have hParent :
      (⟨"/out/b.h"⟩ : Path).parent? = some ⟨"/out"⟩ := by
    decide
  rw [Job.edit,
    FileTree.makeDirectories_same hSite.tree.resolve_out hParent rfl]

theorem OnSite.parent?_eq
    {d : Dependency}
    (hOn : OnSite d) :
    ((⟨"/out"⟩ : Path).join d.file).parent? = some ⟨"/out"⟩ := by
  rcases hOn with rfl | ⟨i, rfl, hMain⟩
  · decide
  · rw [Dependency.file, hMain]
    decide

/- What is compiled or included can be generated. -/
theorem OnSite.succeeds
    {d : Dependency}
    (hOn : OnSite d) :
    Generation.Succeeds (Works trace chosen w) ⟨"/source"⟩ ⟨"/out"⟩
      d where
  exists_eq v hWorks := by
    rcases hOn.resolve_source with ⟨name, content, hResolve⟩
    rw [FileTree.exists?, FileTree.status,
      hResolve _ _ hWorks.site.tree]
    rfl
  makeDirectories directory hParent v hWorks := by
    rw [hOn.parent?_eq] at hParent
    cases hParent
    exact ⟨v, hWorks.site.makeDirectories, hWorks⟩
  writeOne v hWorks := by
    rcases hWorks.site.writeOne hOn with ⟨v', hOne, hWorks'⟩
    exact ⟨v', hOne, hWorks.trans hWorks'⟩

theorem IsSite.generating
    (hSite : IsSite trace chosen w)
    (hOf : IsOfSite c)
    (hTidy : c.IsTidy)
    (hOn : ∀ e ∈ c.dependencies, OnSite e) :
    ∃ w',
      c.generating ⟨"/out"⟩ w =
        (.ok (Dict.ofList
            (Generation.recordAll (fun _ => true) c.dependencies)),
          w') ∧
      Works trace chosen w w' := by
  rw [Composer.generating, Job.bind_of_ok hSite.makeDirectories,
    hOf.sourceDir_eq]
  exact
    Generation.generate_of_succeeds (fun _ => hTidy.isSpelled)
      (fun e he => (hOn e he).succeeds)
      ⟨hSite, .refl w.files⟩

/- The file states a condition of the source. -/
theorem states_site (hOf : IsOfSite c) :
    States (.ok siteFacts) c [(⟨"a.c"⟩, .literal "X")] := by
  have hRead :
      FileConditions.ofJson ⟨"/source"⟩ site.strategy.optionStart
          site.model siteFacts =
        (.ok [(⟨"a.c"⟩, .literal "X")], []) := by
    decide +kernel
  refine ⟨⟨"/source/facts"⟩, siteFacts, [], ?_, rfl, ?_⟩
  · rw [hOf.config_eq]
    rfl
  · rw [hOf.sourceDir_eq, hOf.strategy_eq, hOf.model_eq]
    exact hRead

theorem IsSite.finds
    (hSite : IsSite trace chosen w)
    (hOf : IsOfSite c) :
    Finds (.ok siteFacts) c w := by
  have hPair :
      FileTree.IsPair ⟨"/source/facts"⟩ "source" "facts" := by
    constructor <;> decide
  intro p hPath
  rw [hOf.config_eq] at hPath
  cases hPath
  apply FileTree.readText_of_read
  rw [FileTree.read,
    hPair.status_file hSite.tree.source hSite.tree.facts]

theorem IsSite.stays
    (hSite : IsSite trace chosen w)
    (hStays : Stays w w') :
    Works trace chosen w w' := by
  constructor
  · exact
      ⟨hStays.files_eq ▸ hSite.tree,
        hStays.programs_eq.trans hSite.programs_eq,
        hStays.searchPath_eq.trans hSite.searchPath_eq,
        hStays.cancelled_eq.trans hSite.cancelled_eq⟩
  · rw [hStays.files_eq]
    exact .refl _

/- Presence is found out about, whatever is remembered. -/
theorem IsSite.discovers
    (hSite : IsSite trace chosen w)
    (hOf : IsOfSite c)
    (hReached : w.space.Reached)
    (hOn : ∀ e ∈ c.dependencies, OnSite e)
    (sources : SourceMap) :
    ∃ presence read w',
      Discovers c sources w presence read w' := by
  have hRead :
      ∃ files log, c.readFileConditions w =
        (.ok (some files), { w with log }) := by
    cases hKnown : c.fileConditions with
    | none =>
        exact
          ⟨_, readFileConditions_of_states hKnown (hSite.finds hOf)
            (states_site hOf)⟩
    | some files =>
        refine ⟨files, w.log, ?_⟩
        unfold readFileConditions
        rw [hKnown]
        rfl
  rcases hRead with ⟨files, log, hRead⟩
  have hAsked : c.config.presenceConditions = true := by
    rw [hOf.config_eq]
    rfl
  have hReady : IsReady w.files { w with log } :=
    ⟨rfl, hReached, hSite.cancelled_eq⟩
  have hText :
      ∀ i ∈ c.compiledFiles, ∃ text,
        w.files.readLossy ((c.context w.files).absolute i.file) =
          .ok text := by
    intro i hi
    have hFile : i.file = ⟨"a.c"⟩ := by
      rcases hOn _ (mem_compiledFiles hi) with hHeader | hMain
      · cases hHeader
      · rcases hMain with ⟨j, hSame, hFile⟩
        cases hSame
        exact hFile
    have hPlace :
        (c.context w.files).absolute i.file = ⟨"/source/a.c"⟩ := by
      have hJoin :
          (⟨"/source"⟩ : Path).join ⟨"a.c"⟩ = ⟨"/source/a.c"⟩ := by
        decide
      rw [LineContext.absolute, hFile, if_neg (by decide), context,
        hOf.sourceDir_eq]
      exact hJoin
    refine ⟨Utf8.decodeLossy (Utf8.encode siteMain), ?_⟩
    rw [hPlace, FileTree.readLossy, FileTree.read, FileTree.status,
      hSite.tree.resolve_main]
    rfl
  rcases exists_lineConditions (c := c) hReady hText with
    ⟨⟨lines, excluded⟩, w', hLines⟩
  exact ⟨_, some files, w', .known hAsked hRead hLines⟩

/- What is known of a composition of the site. -/
structure Composes
    (trace : Bool → String)
    (on : Bool)
    (found : List Dependency)
    (c : Composer)
    (w : Workspace)
    (answer : Composition)
    (c' : Composer)
    (w' : Workspace) : Prop where
  keeps :
    KeepsOriginals (switch on) ⟨"/out"⟩ c w answer c' w'
  isOfSite : IsOfSite c'
  stage_eq : c'.stage = .composed
  dependencies_eq : c'.dependencies = c.arrangement.arrange found
  generation_eq :
    c'.generation =
      Dict.ofList
        (Generation.recordAll (fun _ => true) c'.dependencies)
  sources_eq : answer.sources.generation = c'.generation
  leaves :
    ∃ t,
      Generation.Leaves c'.dependencies ⟨"/out"⟩ c'.generation t
        w'.files
  reached : w'.space.Reached
  works : Works trace (switchText on) w w'

/- The site can be composed again and again. -/
theorem IsSite.compose
    {on : Bool}
    {compiled : List Inclusion}
    {found : List Dependency}
    (hSite : IsSite trace chosen w)
    (hOf : IsOfSite c)
    (hReady : c.stage ∈ ready)
    (hReached : w.space.Reached)
    (hTraces : Traces (trace on) compiled found)
    (hOn : ∀ e ∈ found, OnSite e) :
    (∀ c₁ w₁,
      approach (switch on) ⟨"/out"⟩ c w = ((.ok (), c₁), w₁) →
        Finds (.ok siteFacts) c₁ w₁) ∧
      ∃ answer c' w',
        Composes trace on found c w answer c' w' := by
  have hCopied : IsOfSite c.copied :=
    (SameParts.copied c).isOfSite hOf
  have hCopy : w.files.exists? c.sourceDir = true := by
    rw [hOf.sourceDir_eq, FileTree.exists?,
      hSite.tree.status_source]
    rfl
  have hChosen : (switchText on == switchText true) = on := by
    cases on <;> decide
  rcases hSite.configuring hCopied on with
    ⟨w₁, hConfigure, hWorks₁⟩
  have hPrepare : c.copied.preparing w₁ = (.ok (), w₁) := by
    rw [preparing, hCopied.sourceDir_eq, hCopied.strategy_eq]
    rfl
  rcases hWorks₁.site.resolving hCopied (hChosen.symm ▸ hTraces)
    with ⟨w₂, hResolve, hWorks₂⟩
  have hFinding :
      c.copied.finding (switch on) w = (.ok found, w₂) := by
    rw [finding, Job.bind_of_ok hConfigure,
      Job.bind_of_ok hPrepare]
    exact hResolve
  have hSurvey := survey_of_finding hReady hCopy hFinding
  have hSurveyed : IsOfSite (c.surveyed found) :=
    (SameParts.surveyed c found).isOfSite hOf
  have hTidy := isTidy_surveyed hFinding
  have hAll : ∀ e ∈ (c.surveyed found).dependencies, OnSite e :=
    fun e he => hOn e ((c.arrangement.perm found).mem_iff.mp he)
  rcases hWorks₂.site.generating hSurveyed hTidy hAll with
    ⟨w₃, hGenerate, hWorks₃⟩
  have hApproach := approach_of_generating hSurvey hGenerate
  have hLeaves := leaves_generating hTidy hGenerate
  have hProduced :=
    (SameParts.produced c found
      (Dict.ofList
        (Generation.recordAll (fun _ => true)
          (c.surveyed found).dependencies)))
      |>.isOfSite hOf
  have hReached₃ : w₃.space.Reached := by
    have hQuiet :=
      quiet_approach (switch on) ⟨"/out"⟩ c w
        (hOf.settings hOf) hReached
    rw [hApproach] at hQuiet
    exact hQuiet.2
  constructor
  · intro c₁ w₁ hRun
    rw [hApproach] at hRun
    cases hRun
    exact hWorks₃.site.finds hProduced
  rcases hWorks₃.site.discovers hProduced hReached₃ hAll
    (Composer.sourcesIn _ w₃) with
    ⟨presence, read, w', hDiscovers⟩
  have hFinish := hDiscovers.finish rfl (switch on) ⟨"/out"⟩
  have hWorks₄ := hWorks₃.site.stays hDiscovers.stays
  have hRun :
      Composer.compose (switch on) ⟨"/out"⟩ c w =
        finish (switch on) ⟨"/out"⟩
          (c.produced found
            (Dict.ofList
              (Generation.recordAll (fun _ => true)
                (c.surveyed found).dependencies)))
          w₃ := by
    rw [compose_eq, bind_of_ok hApproach]
  rcases hProduced with ⟨hConfig, hModel, hStrategy, hScanner⟩
  rw [← hDiscovers.stays.files_eq] at hLeaves
  refine
    ⟨_, _, w', ⟨hCopy, hRun.trans hFinish, ?_⟩,
      ⟨hConfig, hModel, hStrategy, hScanner⟩, rfl, rfl, rfl, rfl,
      ⟨_, hLeaves⟩, hDiscovers.stays.reached hReached₃,
      (hWorks₁.trans hWorks₂).trans (hWorks₃.trans hWorks₄)⟩
  intro c₁ between hSurvey'
  rw [hSurvey] at hSurvey'
  cases hSurvey'
  rw [hOf.sourceDir_eq]
  exact
    sameOriginals_site hAll hWorks₂.site.tree hWorks₄.site.tree

end Site

end Composer

end Variability
