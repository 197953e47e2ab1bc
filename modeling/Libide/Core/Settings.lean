import Mathlib.Data.List.Basic

/-! # Settings layered over a project

`ide_settings_constructed` (`ide-settings.c`) checks the schema id and path an `IdeSettings` was built
with, then layers a project's settings, if it has one, over the application's. The application's path
is the schema's own path, or the given path, or the schema id with its dots made slashes. A project
layer exists only for a relocatable schema and a project id, and its path is built twice over: from the
given path past `/org/gnome/builder/`, or from the schema id past `org.gnome.builder.`. Both give
`/org/gnome/builder/projects/<project>/` followed by what the application's path has past
`/org/gnome/builder/`, and the checks before them make both offsets fall inside their strings.

A C string is its characters; every offset the function takes follows an ASCII prefix it has just
checked, so byte and character offsets agree. A failed `g_error` aborts with its message. -/

namespace Libide.Core

/-! ### GLib strings -/

/-- `g_str_has_prefix`. -/
def gStrHasPrefix (str pre : String) : Bool := pre.data.isPrefixOf str.data

/-- `g_str_has_suffix`. -/
def gStrHasSuffix (str suffix : String) : Bool := suffix.data.isSuffixOf str.data

/-- `g_strdelimit`: every character of `delimiters` becomes `newDelimiter`. -/
def gStrdelimit (str : String) (delimiters : List Char) (newDelimiter : Char) : String :=
  ⟨str.data.map fun c => if c ∈ delimiters then newDelimiter else c⟩

theorem gStrHasPrefix_iff {str pre : String} : gStrHasPrefix str pre = true ↔ ∃ rest, str = pre ++ rest := by
  simp only [gStrHasPrefix, List.isPrefixOf_iff_prefix, List.IsPrefix, String.ext_iff, String.data_append]
  exact ⟨fun ⟨t, ht⟩ => ⟨⟨t⟩, ht.symm⟩, fun ⟨t, ht⟩ => ⟨t.data, ht.symm⟩⟩

@[simp] theorem gStrdelimit_append (s t : String) (ds : List Char) (c : Char) :
    gStrdelimit (s ++ t) ds c = gStrdelimit s ds c ++ gStrdelimit t ds c :=
  String.ext (by simp [gStrdelimit])

/-! ### Construction -/

/-- How the construction stops: a `g_error` with its message, or pointer arithmetic past the end of a
    string (undefined behaviour), with the offset. -/
inductive Abort
  | gError (message : String)
  | pointerOutside (offset : Nat)
  deriving DecidableEq, Repr

/-- `str + offset` as a C string, defined while the offset is within the string or at its `NUL`. -/
def strOffset (str : String) (offset : Nat) : Except Abort String :=
  if offset ≤ str.length then .ok ⟨str.data.drop offset⟩ else .error (.pointerOutside offset)

/-- A `GSettingsSchema` as `g_settings_schema_source_lookup` returns it: only its path is read, `NULL`
    for a relocatable schema. -/
structure Schema where
  path : Option String
  deriving DecidableEq, Repr

/-- The `IdeLayeredSettings` made: its schema id, the application's path it is created with, and the
    paths of the `GSettings` layers appended to it, in order. -/
structure LayeredSettings where
  schemaId : String
  path : String
  layers : List String
  deriving DecidableEq, Repr

/-- The checks of `self->path`. -/
def pathError : Option String → Option Abort
  | some path =>
    if !gStrHasPrefix path "/org/gnome/builder/" then
      some (.gError "You must use a path that begins with /org/gnome/builder/")
    else if !gStrHasSuffix path "/" then some (.gError "Settings paths must end in /")
    else none
  | none => none

/-- The path of the project layer of `project_id`, from `self->path` or else from the schema id. -/
def projectPath (schemaId : String) (path : Option String) (projectId : String) : Except Abort String :=
  match path with
  | some path =>
    (strOffset path "/org/gnome/builder/".length).map fun rest =>
      "/org/gnome/builder/projects/" ++ projectId ++ "/" ++ rest
  | none =>
    (strOffset schemaId "org.gnome.builder.".length).map fun suffix =>
      "/org/gnome/builder/projects/" ++ projectId ++ "/" ++ gStrdelimit suffix ['.'] '/' ++ "/"

/-- What `ide_settings_constructed` builds once its checks pass: the application's path, the project
    layer's path if there is one, and the layers. -/
def layered (schemaId : String) (schema : Schema) (path projectId : Option String) :
    Except Abort LayeredSettings :=
  let appPath := (schema.path <|> path).getD ("/" ++ gStrdelimit schemaId ['.'] '/' ++ "/")
  let projectLayer : Except Abort (Option String) :=
    match schema.path, projectId with
    | none, some projectId => (projectPath schemaId path projectId).map some
    | _, _ => .ok none
  projectLayer.map fun project => ⟨schemaId, appPath, project.toList ++ [appPath]⟩

/-- `ide_settings_constructed`, with `source` for `g_settings_schema_source_get_default ()`. -/
def constructed (source : String → Option Schema) (schemaId path projectId : Option String) :
    Except Abort LayeredSettings :=
  match schemaId with
  | none => .error (.gError "You must set IdeSettings:schema-id during construction")
  | some schemaId =>
    if !(schemaId == "org.gnome.builder" || gStrHasPrefix schemaId "org.gnome.builder.") then
      .error (.gError ("You must use a schema prefixed with org.gnome.builder. (" ++ schemaId ++ ")"))
    else match pathError path with
    | some abort => .error abort
    | none =>
      match source schemaId with
      | none => .error (.gError ("Could not locate schema " ++ schemaId))
      | some schema =>
        if schema.path = none ∧ !gStrHasPrefix schemaId "org.gnome.builder." then
          .error (.gError "Project schemes must have a prefix of org.gnome.builder.")
        else layered schemaId schema path projectId

/-! ### The project layer -/

theorem strOffset_append (pre rest : String) : strOffset (pre ++ rest) pre.length = .ok rest := by
  obtain ⟨p⟩ := pre
  simp only [strOffset, String.length_append, Nat.le_add_right, if_true, String.data_append,
    String.length_mk, List.drop_left]

theorem pathError_gError {path : Option String} {abort : Abort} (h : pathError path = some abort) :
    ∃ message, abort = .gError message := by
  cases path with
  | none => cases h
  | some p =>
    simp only [pathError] at h
    split at h
    · exact ⟨_, (Option.some_injective _ h).symm⟩
    · split at h
      · exact ⟨_, (Option.some_injective _ h).symm⟩
      · cases h

theorem pathError_eq_none {path : Option String} (h : pathError path = none) :
    ∀ p, path = some p → ∃ rest, p = "/org/gnome/builder/" ++ rest := by
  rintro p rfl
  simp only [pathError] at h
  split at h
  · cases h
  next hpre => exact gStrHasPrefix_iff.1 (by simpa using hpre)

/-- For a relocatable schema under `org.gnome.builder.`, the application's path lies under
    `/org/gnome/builder/`, and the project layer's path, taken from the path or from the schema id, is
    the rest of it under the project. -/
theorem projectPath_eq {schemaId : String} {path : Option String} (projectId : String)
    (hp : pathError path = none) (hs : gStrHasPrefix schemaId "org.gnome.builder." = true) :
    ∃ rest, path.getD ("/" ++ gStrdelimit schemaId ['.'] '/' ++ "/") = "/org/gnome/builder/" ++ rest ∧
      projectPath schemaId path projectId = .ok ("/org/gnome/builder/projects/" ++ projectId ++ "/" ++ rest) := by
  cases path with
  | some p =>
    obtain ⟨rest, rfl⟩ := pathError_eq_none hp p rfl
    exact ⟨rest, rfl, by simp [projectPath, strOffset_append, Except.map]⟩
  | none =>
    obtain ⟨r, rfl⟩ := gStrHasPrefix_iff.1 hs
    refine ⟨gStrdelimit r ['.'] '/' ++ "/", String.ext ?_, ?_⟩
    · simp [gStrdelimit]
    · simp [projectPath, strOffset_append, Except.map, String.append_assoc]

/-- Once its checks pass, the construction does not fail. -/
theorem layered_ok {schemaId : String} {schema : Schema} {path : Option String} (projectId : Option String)
    (hp : pathError path = none) (hs : schema.path = none → gStrHasPrefix schemaId "org.gnome.builder." = true) :
    ∃ ls, layered schemaId schema path projectId = .ok ls := by
  cases hsp : schema.path with
  | some sp => simp [layered, hsp, Except.map]
  | none =>
    cases projectId with
    | none => simp [layered, hsp, Except.map]
    | some projectId =>
      obtain ⟨rest, -, hpp⟩ := projectPath_eq projectId hp (hs hsp)
      simp [layered, hsp, hpp, Except.map]

/-- What the construction does: it stops on a `g_error`, or its checks pass and it builds `layered`. -/
theorem constructed_cases (source : String → Option Schema) (schemaId path projectId : Option String) :
    (∃ message, constructed source schemaId path projectId = .error (.gError message)) ∨
    ∃ s schema, schemaId = some s ∧ pathError path = none ∧ source s = some schema ∧
      (schema.path = none → gStrHasPrefix s "org.gnome.builder." = true) ∧
      constructed source schemaId path projectId = layered s schema path projectId := by
  rcases schemaId with _ | s
  · exact .inl ⟨_, rfl⟩
  simp only [constructed]
  split
  · exact .inl ⟨_, rfl⟩
  split
  next abort hp =>
    obtain ⟨m, rfl⟩ := pathError_gError hp
    exact .inl ⟨m, rfl⟩
  next hp =>
    split
    · exact .inl ⟨_, rfl⟩
    next schema hsrc =>
      split
      · exact .inl ⟨_, rfl⟩
      next hrel => exact .inr ⟨s, schema, rfl, hp, hsrc, fun hn => by simpa [hn] using hrel, rfl⟩

/-- Every construction stops on a `g_error` or succeeds: the offsets `path + 19` and `schema_id + 18` lie
    within their strings. Whenever a project layer is made (a relocatable schema and a project id), the
    application's path lies under `/org/gnome/builder/`, and the project layer comes first with the
    path `/org/gnome/builder/projects/<project_id>/` followed by the rest of the application's path. -/
theorem constructed_projectLayer (source : String → Option Schema) (schemaId path projectId : Option String) :
    (∀ offset, constructed source schemaId path projectId ≠ .error (.pointerOutside offset)) ∧
    ∀ s pid ls, schemaId = some s → projectId = some pid → (source s).map Schema.path = some none →
      constructed source schemaId path projectId = .ok ls →
      ∃ rest, ls.path = "/org/gnome/builder/" ++ rest ∧
        ls.layers = ["/org/gnome/builder/projects/" ++ pid ++ "/" ++ rest, ls.path] := by
  rcases constructed_cases source schemaId path projectId with ⟨m, hm⟩ | ⟨s, schema, rfl, hp, hsrc, hs, heq⟩
  · refine ⟨fun offset h => ?_, fun s pid ls _ _ _ h => ?_⟩ <;> rw [hm] at h <;> cases h
  refine ⟨fun offset h => ?_, fun s' pid ls hs' hpid hrel h => ?_⟩
  · obtain ⟨ls, hls⟩ := layered_ok projectId hp hs
    rw [heq, hls] at h
    cases h
  · cases hs'
    subst hpid
    have hnone : schema.path = none := by simpa [hsrc] using hrel
    obtain ⟨rest, happ, hpp⟩ := projectPath_eq pid hp (hs hnone)
    rw [heq] at h
    simp only [layered, hnone, hpp, Except.map, Option.none_orElse] at h
    cases h
    exact ⟨rest, happ, by simp [happ]⟩

theorem constructed_projectLayer_editor :
    constructed (fun _ => some ⟨none⟩) (some "org.gnome.builder.editor") none (some "proj") =
        .ok ⟨"org.gnome.builder.editor", "/org/gnome/builder/editor/",
          ["/org/gnome/builder/projects/proj/editor/", "/org/gnome/builder/editor/"]⟩ ∧
      ∃ rest, "/org/gnome/builder/editor/" = "/org/gnome/builder/" ++ rest ∧
        ["/org/gnome/builder/projects/proj/editor/", "/org/gnome/builder/editor/"] =
          ["/org/gnome/builder/projects/" ++ "proj" ++ "/" ++ rest, "/org/gnome/builder/editor/"] :=
  have hok : constructed (fun _ => some ⟨none⟩) (some "org.gnome.builder.editor") none (some "proj") =
      .ok ⟨"org.gnome.builder.editor", "/org/gnome/builder/editor/",
        ["/org/gnome/builder/projects/proj/editor/", "/org/gnome/builder/editor/"]⟩ := rfl
  ⟨hok, (constructed_projectLayer (fun _ => some ⟨none⟩) (some "org.gnome.builder.editor") none (some "proj")).2
    _ _ _ rfl rfl rfl hok⟩

end Libide.Core
