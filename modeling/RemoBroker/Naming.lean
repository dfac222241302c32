import RemoBroker.Daemon.Records
import RemoBroker.Manifest.Exact

/-! The name of a manifest and the directory that the path of its project denotes.  The check of the
name is left out where the path has no file name, as `/srv/web/..` has none. -/

namespace RemoBroker

namespace Path

/-- The directory reached from `dir` by one component.  The root is its own parent. -/
def enter (dir : List (List Char)) (c : List Char) : List (List Char) :=
  if c = ['.', '.'] then dir.dropLast else dir ++ [c]

/-- The directory that a path denotes for a process in `cwd`, where nothing on the way is a symbolic
link.  A directory is the list of the names from the root to it. -/
def denoted (cwd : List (List Char)) (p : String) : List (List Char) :=
  (components p).foldl enter (if isAbsolute p then [] else cwd)

/-- The last name of the directory that a path denotes; the root has none. -/
def basename (cwd : List (List Char)) (p : String) : Option String :=
  (denoted cwd p).getLast?.map String.ofList

/-- The path ends in a name, up to separators and `.` components. -/
def EndsInName (p : String) : Prop := ∃ c, (components p).getLast? = some c ∧ c ≠ ['.', '.']

variable {cwd : List (List Char)} {p : String}

theorem basename_of_endsInName (h : EndsInName p) : basename cwd p = fileName p := by
  obtain ⟨c, hlast, hc⟩ := h
  obtain ⟨cs, hcs⟩ := List.getLast?_eq_some_iff.mp hlast
  have hdenoted : (denoted cwd p).getLast? = some c := by
    rw [denoted, hcs, List.foldl_append, List.foldl_cons, List.foldl_nil, enter, if_neg hc,
      List.getLast?_concat]
  rw [basename, hdenoted, fileName, hlast, Option.map_some]
  exact (if_neg hc).symm

theorem fileName_isSome_iff : (fileName p).isSome = true ↔ EndsInName p := by
  unfold fileName EndsInName
  cases (components p).getLast? with
  | none => simp
  | some c =>
    by_cases hc : c = ['.', '.']
    · simp [hc]
    · simp [hc]

example : basename [] "/srv/web/./" = some "web" := by decide

example : basename [['s', 'r', 'v']] "web/.." = some "srv" := by decide

end Path

/-- A TOML parser and a disk that give the manifest of a project called `name` everywhere. -/
def parseNamed (name : String) : String → Except String RawManifest :=
  fun _ => .ok (sampleManifest name [])

theorem load_unchecked {path : String} (name : String) (hpath : Path.fileName path = none)
    (hname : isValidProjectName name = true) :
    ∃ m file, Manifest.load (parseNamed name) (sampleDisk "") path = .ok (m, file) ∧
      m.project.name = name := by
  have hconforms : Manifest.Conforms (sampleManifest name []) none :=
    ⟨by simp [sampleManifest, supportedSchemaVersions], isValidProjectName_iff.mp hname, by simp,
      by simp [sampleManifest], by simp [sampleManifest], by simp [sampleManifest],
      by simp [sampleManifest], by simp [sampleManifest]⟩
  obtain ⟨m, hm⟩ := Manifest.validate_of_conforms hconforms
  refine ⟨m, Path.join path ".devcontainer/remo-broker.toml", ?_, ?_⟩
  · have hfile : discover (sampleDisk "") path =
        some (Path.join path ".devcontainer/remo-broker.toml") := rfl
    unfold Manifest.load
    rw [hfile, hpath]
    simp only [sampleDisk, parseNamed, Except.mapError, bind, Except.bind, pure, Except.pure, hm]
  · rw [(Manifest.validate_ok hm).2.1]
    rfl

/-- A manifest that is loaded from a path that ends in a name has that name. -/
theorem load_basename {cwd : List (List Char)} {toml : String → Except String RawManifest}
    {disk : Disk} {path file : String} {m : Manifest} (hends : Path.EndsInName path)
    (h : Manifest.load toml disk path = .ok (m, file)) :
    Path.basename cwd path = some m.project.name := by
  obtain ⟨raw, hvalid⟩ := Manifest.load_ok h
  obtain ⟨d, hd⟩ := Option.isSome_iff_exists.mp (Path.fileName_isSome_iff.mpr hends)
  rw [Path.basename_of_endsInName hends, hd, (Manifest.validate_ok hvalid).2.2.2 d hd]

/-- The projects, and the requests about to register one, whose path ends in a name have the name of
the directory. -/
structure DirNamed (cwd : List (List Char)) (s : Daemon) : Prop where
  project : ∀ reg p, s.projects reg = some p → Path.EndsInName p.projectPath →
    Path.basename cwd p.projectPath = some reg.name
  request : ∀ id path m mp, s.requests id = some (.locking path m mp) → Path.EndsInName path →
    Path.basename cwd path = some id.name

section
variable {env : Env} {cwd : List (List Char)} {s t : Daemon} {o : List Obs} {id : AdminId}

theorem AdminStep.locking_cases {a : AdminAction} {path mp : String} {m : Manifest}
    (step : AdminStep env s id a t o) (h : t.requests id = some (.locking path m mp)) :
    ∃ disk, loadNamed env.toml disk id.name path = .ok (m, mp) := by
  cases step with
  | @registerLoaded path' disk m' mp' task load =>
    have heq : AdminTask.locking path' m' mp' = .locking path m mp := by
      simpa [Daemon.setRequest] using h
    cases heq
    exact ⟨disk, load⟩
  | @submit op => cases op <;> simp [Daemon.setRequest, AdminOp.start] at h
  | _ => simp [Daemon.setRequest] at h

theorem ProjectChange.dirNamed {reg : RegId} {p : Project}
    (change : ProjectChange env s id reg (some p)) (h : DirNamed cwd s)
    (hends : Path.EndsInName p.projectPath) : Path.basename cwd p.projectPath = some reg.name := by
  generalize hnew : some p = new at change
  cases change with
  | same => exact h.project reg p hnew.symm hends
  | created task name =>
    cases hnew
    rw [name]
    exact h.request id _ _ _ task hends
  | @configured old m task project | @stored old m task project =>
    cases hnew
    exact h.project reg old project hends

theorem AdminStep.dirNamed {a : AdminAction} (step : AdminStep env s id a t o)
    (h : DirNamed cwd s) {id' : AdminId} {path mp : String} {m : Manifest}
    (htask : t.requests id' = some (.locking path m mp)) (hends : Path.EndsInName path) :
    Path.basename cwd path = some id'.name := by
  by_cases hid : id' = id
  · subst hid
    obtain ⟨disk, load⟩ := step.locking_cases htask
    obtain ⟨hname, -, hload⟩ := loadNamed_ok load
    rw [load_basename hends hload, hname]
  · obtain ⟨new, hnew⟩ := step.requests_eq
    rw [hnew, Function.update_of_ne hid] at htask
    exact h.request id' path m mp htask hends

theorem DirNamed.step {a : Action} (h : DirNamed cwd s) (step : DaemonStep env s a t o) :
    DirNamed cwd t := by
  constructor
  · refine step.project_invariant (fun change _ => change.dirNamed h) ?_ h.project
    intro q reg p conn b p' conn' o step hp
    rw [step.project_eq]
    exact hp
  · cases step with
    | admin step => exact fun id' path m mp => step.dirNamed h
    | loop step =>
      rw [step.frame.2.2.1]
      exact h.request
    | conn | rotate | status | writer => exact h.request

theorem run_dirNamed {backend : Option Session} {stale : Daemon.Stale} {as : List Action}
    {tr : List Obs} (hrun : run env backend stale as = some (s, tr)) : DirNamed cwd s :=
  Machine.exec_invariant ⟨by simp [Daemon.init], by simp [Daemon.init]⟩
    (fun _ _ _ _ h hs => h.step (step_cases hs)) hrun

end

/-- Whatever the file system holds, the manifest that is loaded from a path is named like the
directory, and so is the project that is registered or reloaded with it, exactly if the path ends in
a name. -/
theorem name_eq_basename_iff (cwd : List (List Char)) (path : String) :
    ((∀ toml disk m file, Manifest.load toml disk path = .ok (m, file) →
        Path.basename cwd path = some m.project.name) ∧
      ∀ env backend stale as s tr reg p, run env backend stale as = some (s, tr) →
        s.projects reg = some p → p.projectPath = path →
        Path.basename cwd path = some reg.name ∧
          Path.basename cwd path = some p.manifest.project.name) ↔
      Path.EndsInName path := by
  constructor
  · rintro ⟨hload, -⟩
    rw [← Path.fileName_isSome_iff]
    by_contra hnone
    have hnone : Path.fileName path = none := by simpa using hnone
    obtain ⟨m, file, hm, hname⟩ := load_unchecked "a" hnone (by decide)
    obtain ⟨m', file', hm', hname'⟩ := load_unchecked "b" hnone (by decide)
    have h := hload _ _ _ _ hm
    rw [hload _ _ _ _ hm', hname, hname'] at h
    exact absurd h (by decide)
  · intro hends
    refine ⟨fun toml disk m file h => load_basename hends h, ?_⟩
    rintro env backend stale as s tr reg p hrun hp rfl
    have hname : Path.basename cwd p.projectPath = some reg.name :=
      (run_dirNamed hrun).project reg p hp hends
    refine ⟨hname, ?_⟩
    rw [((run_records hrun).project reg p hp).2.2]
    exact hname

/-- `/srv/web/..` denotes `/srv`, and the manifest of a project `web` found there is registered. -/
theorem registered_under_other_name : Path.basename [] "/srv/web/.." = some "srv" ∧
    ∃ s tr p, run webEnv none (fun _ => none) (Action.register ⟨"web", 0⟩ "/srv/web/.." "web" 0) =
      some (s, tr) ∧ s.inner.lookup "web" = some ⟨"web", 0⟩ ∧ s.projects ⟨"web", 0⟩ = some p ∧
      p.projectPath = "/srv/web/.." ∧ p.manifest.project.name = "web" := by
  refine ⟨by decide, ?_⟩
  have hfacts : (run webEnv none (fun _ => none)
      (Action.register ⟨"web", 0⟩ "/srv/web/.." "web" 0)).map (fun r =>
        (r.1.inner.lookup "web", (r.1.projects ⟨"web", 0⟩).map fun p =>
          (p.projectPath, p.manifest.project.name))) =
      some (some ⟨"web", 0⟩, some ("/srv/web/..", "web")) := by decide +kernel
  obtain ⟨⟨s, tr⟩, hrun, hs⟩ := Option.map_eq_some_iff.mp hfacts
  obtain ⟨hinner, hproject⟩ := Prod.mk.inj hs
  obtain ⟨p, hp, hp'⟩ := Option.map_eq_some_iff.mp hproject
  obtain ⟨hpath, hname⟩ := Prod.mk.inj hp'
  exact ⟨s, tr, p, hrun, hinner, hp, hpath, hname⟩

end RemoBroker
