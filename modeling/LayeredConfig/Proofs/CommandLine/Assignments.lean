import LayeredConfig.CommandLine.Run
import LayeredConfig.Proofs.Config.Precedence
import LayeredConfig.Proofs.Document.Lines

/-!
# Assignments on the command line

The assignments `path=value` of a command are one more source behind the files. As long as their
paths and values can stand in a document without quotes, this source answers like the document that
declares them line by line: the values are typed in the same way, a later one replaces an earlier
one in its place, and all of them rank above the files and below the environment.

* `parseAssignment_assignmentText`: what an assignment says.
* `AnswersAlike`: stacks of sources that cannot be told apart by asking them.
* `loadConfig_assignments`: the configuration from files and assignments is the one from the files
  and the document.
-/

namespace LayeredConfig

/-! ### Stacks that answer alike -/

/-- Both stacks give the same first scalar at every path and list the same segments below it. -/
def AnswersAlike (sources others : List Source) : Prop := ∀ path,
  sources.findSome? (·.value? path) = others.findSome? (·.value? path) ∧
    sources.flatMap (·.keys path) = others.flatMap (·.keys path)

namespace AnswersAlike

variable {sources others : List Source}

/-- They still do so between other sources. -/
theorem append (h : AnswersAlike sources others) (higher lower : List Source) :
    AnswersAlike (higher ++ (sources ++ lower)) (higher ++ (others ++ lower)) := by
  intro path
  obtain ⟨hvalue, hkeys⟩ := h path
  simp only [List.findSome?_append, List.flatMap_append, hvalue, hkeys, and_self]

/-- Merged, they give the same answers. -/
theorem merge (h : AnswersAlike sources others) (path : String) :
    (Source.merge sources).value? path = (Source.merge others).value? path ∧
      (Source.merge sources).keys path = (Source.merge others).keys path :=
  ⟨(h path).1, congrArg OrderedMap.distinct (h path).2⟩

end AnswersAlike

/-! ### One more input -/

namespace ConfigBuilder

variable {builder : ConfigBuilder} {disk : Disk} {input : Input}

/-- A builder whose inputs cannot be loaded fails with one more input in the same way. -/
theorem build_addInput_error {error : Error}
    (h : builder.inputs.mapM (Input.load disk) = .error error) (input : Input) :
    (builder.addInput input).build disk = .error error := by
  rw [build, addInput, List.mapM_append, h]
  rfl

/-- One more input ranks above the others and below the environment. -/
theorem build_addInput {loaded : List (List Source)} {sources : List Source}
    (h : builder.inputs.mapM (Input.load disk) = .ok loaded)
    (hinput : Input.load disk input = .ok sources) :
    (builder.addInput input).build disk =
      .ok { sources := builder.layers (loaded ++ [sources]), root := builder.root } := by
  have hlast : [input].mapM (Input.load disk) = .ok [sources] := by
    rw [List.mapM_cons, hinput]
    rfl
  have hloaded : (builder.addInput input).inputs.mapM (Input.load disk) =
      .ok (loaded ++ [sources]) := by
    rw [addInput, List.mapM_append, h, hlast]
    rfl
  exact build_eq_ok_iff.2 ⟨loaded ++ [sources], mapM_eq_ok_iff.1 hloaded, rfl⟩

/-- Sources of the last input that answer alike make configurations that do. -/
theorem answersAlike_layers (builder : ConfigBuilder) (loaded : List (List Source))
    {sources others : List Source} (h : AnswersAlike sources.reverse others.reverse) :
    AnswersAlike (builder.layers (loaded ++ [sources])) (builder.layers (loaded ++ [others])) := by
  have hlayers : ∀ sources : List Source, builder.layers (loaded ++ [sources]) =
      [builder.environment.toSource] ++
        (sources.reverse ++ (loaded.flatten.reverse ++ [builder.propertySource])) := by
    intro sources
    simp [layers]
  rw [hlayers, hlayers]
  exact h.append _ _

end ConfigBuilder

namespace CommandLine

open Document (IsPlainName IsPlainValue linesText)
open DocumentSource (ofLine ofLines)

/-! ### What assignments say -/

/-- The argument that assigns a value to a path. -/
def assignmentText (entry : String × String) : String := entry.1 ++ "=" ++ entry.2

theorem cut_append {front : List Char} {c : Char} (h : c ∉ front) (rest : List Char) :
    Text.cut c (front ++ c :: rest) = (front, some rest) := by
  have hfront : ∀ d ∈ front, (decide (d ≠ c)) = true := by
    intro d hd
    simpa using fun heq : d = c => h (heq ▸ hd)
  rw [Text.cut, List.dropWhile_append_of_pos hfront, List.takeWhile_append_of_pos hfront]
  simp

/-- A plain path is cut off at the sign behind it, and the value is typed. -/
theorem parseAssignment_assignmentText {entry : String × String} (h : IsPlainName entry.1) :
    parseAssignment (assignmentText entry) = .ok (ofLine entry) := by
  have hequals : '=' ∉ entry.1.toList := fun hmem => (h.isPlainChar '=' hmem).2 (by decide)
  have htext : (assignmentText entry).toList = entry.1.toList ++ '=' :: entry.2.toList := by
    simp [assignmentText]
  have htrim : Text.trimChars entry.1.toList = entry.1.toList :=
    Document.trimChars_of_not_isBlank fun c hc => (h.isPlainChar c hc).1
  have hne : entry.1.toList ≠ [] := fun hnil => h.ne_empty (String.toList_eq_nil_iff.1 hnil)
  rw [parseAssignment, htext, cut_append hequals]
  dsimp only
  rw [htrim, if_neg hne, String.ofList_toList]
  rfl

/-! ### Configurations from files and assignments -/

/-- The builder of a configuration from files. -/
def fileBuilder (environment : Environment) (files : List String) (useEnvironment : Bool) :
    ConfigBuilder :=
  let builder := files.foldl (fun builder file => builder.addFile (.required file)) {}
  if useEnvironment then builder.withEnvironment environment else builder

/-- The source of the assignments. -/
def assignmentSource (entries : List (String × String)) : Source :=
  (Store.ofMap (OrderedMap.ofList (entries.map ofLine))).toSource "map"

/-- The builder with the source of the assignments, if there are any. -/
def addAssignments (builder : ConfigBuilder) (entries : List (String × String)) : ConfigBuilder :=
  if entries = [] then builder else builder.addInput (.source (assignmentSource entries))

/-- The source of the assignments, if there are any, as a stack. -/
def assignmentLayer (entries : List (String × String)) : List Source :=
  if entries = [] then [] else [assignmentSource entries]

variable {entries : List (String × String)} {builder : ConfigBuilder} {disk : Disk}

theorem builderOf_eq (h : ∀ entry ∈ entries, IsPlainName entry.1) (environment : Environment)
    (files : List String) (useEnvironment : Bool) :
    builderOf environment files ⟨entries.map assignmentText, useEnvironment⟩ =
      .ok (addAssignments (fileBuilder environment files useEnvironment) entries) := by
  have hparse : (entries.map assignmentText).mapM parseAssignment = .ok (entries.map ofLine) := by
    rw [mapM_eq_ok_iff, List.forall₂_map_left_iff, List.forall₂_map_right_iff, List.forall₂_same]
    exact fun entry hentry => parseAssignment_assignmentText (h entry hentry)
  rw [builderOf, hparse, addAssignments]
  simp only [bind, Except.bind, List.map_eq_nil_iff]
  by_cases hnil : entries = []
  · rw [if_pos hnil, if_pos hnil, fileBuilder]
  · rw [if_neg hnil, if_neg hnil, fileBuilder]
    cases useEnvironment <;> rfl

/-- Files that cannot be loaded cannot be loaded with assignments either. -/
theorem build_addAssignments_error {error : Error}
    (h : builder.inputs.mapM (Input.load disk) = .error error)
    (entries : List (String × String)) :
    (addAssignments builder entries).build disk = .error error := by
  rw [addAssignments]
  split
  · rw [ConfigBuilder.build, h]
    rfl
  · exact ConfigBuilder.build_addInput_error h _

/-- The assignments rank above the files and below the environment. -/
theorem build_addAssignments {loaded : List (List Source)}
    (h : builder.inputs.mapM (Input.load disk) = .ok loaded) (entries : List (String × String)) :
    (addAssignments builder entries).build disk =
      .ok { sources := builder.layers (loaded ++ [assignmentLayer entries])
            root := builder.root } := by
  rw [addAssignments, assignmentLayer]
  split
  · refine ConfigBuilder.build_eq_ok_iff.2 ⟨loaded, mapM_eq_ok_iff.1 h, ?_⟩
    simp [ConfigBuilder.layers]
  · exact ConfigBuilder.build_addInput h rfl

/-- Without assignments there is nothing to ask the document for, and with some it has the same
values. -/
theorem answersAlike_assignmentLayer (entries : List (String × String)) (name : String) :
    AnswersAlike (assignmentLayer entries).reverse
      [(ofLines name entries).toSource].reverse := by
  intro path
  rw [assignmentLayer]
  split
  next hnil =>
    subst hnil
    exact ⟨rfl, rfl⟩
  next => exact ⟨rfl, rfl⟩

/-- With assignments of plain values to plain paths, a configuration answers like the one from the
same files and, behind them, the document that declares the values line by line. If one of them
cannot be built, neither can the other, for the same reason. -/
theorem loadConfig_assignments
    (hentries : ∀ entry ∈ entries, IsPlainName entry.1 ∧ IsPlainValue entry.2) (setting : Setting)
    (files : List String) (useEnvironment : Bool) (name : String) :
    (∃ config other,
      loadConfig setting files ⟨entries.map assignmentText, useEnvironment⟩ = .ok config ∧
      ((fileBuilder setting.environment files useEnvironment).addInput
        (.text name (linesText entries))).build setting.disk = .ok other ∧
      ∀ path, config.source.value? path = other.source.value? path ∧
        config.source.keys path = other.source.keys path) ∨
    ∃ error,
      loadConfig setting files ⟨entries.map assignmentText, useEnvironment⟩ =
        .error ("Failed to load configuration: " ++ error.message) ∧
      ((fileBuilder setting.environment files useEnvironment).addInput
        (.text name (linesText entries))).build setting.disk = .error error := by
  rw [loadConfig, builderOf_eq fun entry hentry => (hentries entry hentry).1]
  simp only [bind, Except.bind]
  generalize fileBuilder setting.environment files useEnvironment = builder
  cases hloaded : builder.inputs.mapM (Input.load setting.disk) with
  | error error =>
    right
    refine ⟨error, ?_, ConfigBuilder.build_addInput_error hloaded _⟩
    rw [build_addAssignments_error hloaded]
  | ok loaded =>
    left
    have hinput : Input.load setting.disk (.text name (linesText entries)) =
        .ok [(ofLines name entries).toSource] := by
      rw [Input.load, DocumentSource.parse_lines hentries]
      rfl
    have halike := answersAlike_assignmentLayer entries name
    rw [build_addAssignments hloaded]
    exact ⟨_, _, rfl, ConfigBuilder.build_addInput hloaded hinput,
      (builder.answersAlike_layers loaded halike).merge⟩

/-- A disk with a file, and a variable that ranks above it. -/
def siteSetting : Setting where
  disk := Disk.empty.addFile "base" "hosts: [a, b], name: base".toUTF8
  environment := .ofList [("NAME", "site")]
  colored := false

/-- A path that is assigned twice, with another one in between. -/
def siteEntries : List (String × String) := [("hosts.1", " c "), ("port", "80"), ("hosts.1", "d e")]

theorem isPlain_siteEntries :
    ∀ entry ∈ siteEntries, IsPlainName entry.1 ∧ IsPlainValue entry.2 := by
  simp only [siteEntries, List.forall_mem_cons]
  exact ⟨by decide, by decide, by decide, by simp⟩

theorem load_siteSetting :
    (fileBuilder siteSetting.environment ["base"] true).inputs.mapM
      (Input.load siteSetting.disk) = .ok [[ConfigBuilder.hostDocument.toSource]] := by
  have hread : siteSetting.disk.readText "base" = .ok "hosts: [a, b], name: base" := by rfl
  have hload : DocumentSource.load siteSetting.disk "base" = .ok ConfigBuilder.hostDocument := by
    rw [DocumentSource.load, hread]
    exact ConfigBuilder.parse_hostDocument
  have hfile : Input.load siteSetting.disk (.file (.required "base")) =
      .ok [ConfigBuilder.hostDocument.toSource] := by
    rw [Input.load, if_neg (by decide), FileSpec.required, hload]
    rfl
  show [Input.file (.required "base")].mapM (Input.load siteSetting.disk) = _
  rw [List.mapM_cons, hfile]
  rfl

theorem loadConfig_assignments_siteEntries :
    ∃ config, loadConfig siteSetting ["base"] ⟨siteEntries.map assignmentText, true⟩ = .ok config ∧
      config.source.value? "hosts.1" = some (.string "d e") ∧
      config.source.keys "" = ["NAME", "name", "hosts", "port"] := by
  have hinput : Input.load siteSetting.disk (.text "set" (linesText siteEntries)) =
      .ok [(ofLines "set" siteEntries).toSource] := by
    rw [Input.load, DocumentSource.parse_lines isPlain_siteEntries]
    rfl
  have hbuilt := ConfigBuilder.build_addInput load_siteSetting hinput
  obtain ⟨config, other, hload, hbuild, hsame⟩ | ⟨error, -, hbuild⟩ :=
    loadConfig_assignments isPlain_siteEntries siteSetting ["base"] true "set"
  · obtain rfl := Except.ok.inj (hbuild.symm.trans hbuilt)
    refine ⟨config, hload, (hsame "hosts.1").1.trans ?_, (hsame "").2.trans ?_⟩
    · decide +kernel
    · decide +kernel
  · exact absurd (hbuild.symm.trans hbuilt) (by simp)

end CommandLine

end LayeredConfig
