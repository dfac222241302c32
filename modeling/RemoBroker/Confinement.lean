import RemoBroker.AdminSocket
import RemoBroker.Manifest.Grammar
import RemoBroker.Shutdown.Whole

/-! Whatever strings the admin requests carry, the registry holds valid names only, and the daemon
touches no files for its projects other than the sockets of such names in its directory. -/

namespace RemoBroker

namespace Path

variable {rel : String}

/-- The components of a path that is given by its characters. -/
def componentsOf (cs : List Char) : List (List Char) :=
  (cs.splitOn '/').filter fun c => c != [] && c != ['.']

theorem components_eq (p : String) : components p = componentsOf p.toList := rfl

theorem componentsOf_slash (a b : List Char) :
    componentsOf (a ++ '/' :: b) = componentsOf a ++ componentsOf b := by
  simp [componentsOf, List.splitOn_append_cons_self]

theorem componentsOf_name {cs : List Char} (hslash : '/' ∉ cs) (hne : cs ≠ [])
    (hdot : cs ≠ ['.']) : componentsOf cs = [cs] := by
  simp [componentsOf, List.splitOn_eq_singleton hslash, hne, hdot]

theorem isAbsolute_of_notMem (hslash : '/' ∉ rel.toList) : isAbsolute rel = false := by
  unfold isAbsolute
  cases hrel : rel.toList with
  | nil => rfl
  | cons c cs =>
    rw [hrel] at hslash
    simp only [List.head?_cons, beq_eq_false_iff_ne, ne_eq, Option.some.injEq]
    rintro rfl
    exact hslash List.mem_cons_self

/-- The characters of a join with a name: after a separator of the directory's own, or a new one. -/
theorem toList_join (dir : String) (hslash : '/' ∉ rel.toList) :
    (dir.toList = [] ∧ (join dir rel).toList = rel.toList) ∨
    (∃ pre, dir.toList = pre ++ ['/'] ∧ (join dir rel).toList = pre ++ '/' :: rel.toList) ∨
    (dir.toList ≠ [] ∧ (join dir rel).toList = dir.toList ++ '/' :: rel.toList) := by
  simp only [join, isAbsolute_of_notMem hslash, Bool.false_eq_true, ↓reduceIte]
  rcases List.eq_nil_or_concat dir.toList with hnil | ⟨pre, c, hconcat⟩
  · simp [hnil]
  · rw [List.concat_eq_append] at hconcat
    by_cases hc : c = '/'
    · subst hc
      exact .inr (.inl ⟨pre, hconcat, by simp [hconcat]⟩)
    · exact .inr (.inr ⟨by simp [hconcat], by simp [hconcat, hc]⟩)

/-- A name joined to a directory is a child of the directory. -/
theorem components_join (dir : String) (hslash : '/' ∉ rel.toList) (hne : rel.toList ≠ [])
    (hdot : rel.toList ≠ ['.']) : components (join dir rel) = components dir ++ [rel.toList] := by
  have hnil : componentsOf [] = [] := by decide
  rw [components_eq, components_eq, ← componentsOf_name hslash hne hdot]
  rcases toList_join dir hslash with ⟨hdir, hjoin⟩ | ⟨pre, hdir, hjoin⟩ | ⟨-, hjoin⟩
  · rw [hjoin, hdir, hnil, List.nil_append]
  · rw [hjoin, hdir, componentsOf_slash, componentsOf_slash, hnil, List.append_nil]
  · rw [hjoin, componentsOf_slash]

theorem isAbsolute_join (dir : String) (hslash : '/' ∉ rel.toList) :
    isAbsolute (join dir rel) = isAbsolute dir := by
  rcases toList_join dir hslash with ⟨hdir, hjoin⟩ | ⟨pre, hdir, hjoin⟩ | ⟨hdir, hjoin⟩
  · have hrel := isAbsolute_of_notMem hslash
    unfold isAbsolute at hrel ⊢
    rw [hjoin, hrel, hdir]
    rfl
  · unfold isAbsolute
    rw [hjoin, hdir]
    cases pre <;> rfl
  · unfold isAbsolute
    rw [hjoin]
    cases hd : dir.toList with
    | nil => exact absurd hd hdir
    | cons c cs => rfl

end Path

/-- The path is that of the socket of a valid name, directly in the directory. -/
structure SocketOf (dir n path : String) : Prop where
  name : n.toList ∈ projectNamePattern
  joined : path = Path.join dir (n ++ ".sock")
  child : Path.components path = Path.components dir ++ [n.toList ++ ".sock".toList]
  absolute : Path.isAbsolute path = Path.isAbsolute dir

theorem notMem_of_valid {n : String} (h : n.toList ∈ projectNamePattern) : '/' ∉ n.toList := by
  obtain ⟨c, cs, hn, hc, -, hall⟩ := mem_projectNamePattern.mp h
  rw [hn, List.mem_cons, not_or]
  constructor
  · rintro rfl
    exact absurd hc (by decide)
  · intro hmem
    exact absurd (hall '/' hmem) (by decide)

theorem socketOf_valid {dir n : String} (h : isValidProjectName n = true) :
    SocketOf dir n (socketPathFor dir n) := by
  have hname := isValidProjectName_iff.mp h
  have hlist : (n ++ ".sock").toList = n.toList ++ ".sock".toList := String.toList_append
  have hslash : '/' ∉ (n ++ ".sock").toList := by
    rw [hlist, List.mem_append, not_or]
    exact ⟨notMem_of_valid hname, by decide⟩
  have hlen : 5 ≤ (n ++ ".sock").toList.length := by
    rw [hlist, List.length_append]
    exact Nat.le_add_left 5 _
  refine ⟨hname, rfl, ?_, Path.isAbsolute_join dir hslash⟩
  rw [← hlist]
  refine Path.components_join dir hslash ?_ ?_ <;> intro heq <;> simp [heq] at hlen

section
variable {env : Env} {s t : Daemon} {o tr : List Obs} {id : AdminId} {path : String}

/-- A file that an admin step changes is one that it shows an operation on. -/
theorem AdminStep.files_cases {a : AdminAction} (step : AdminStep env s id a t o) :
    t.files path = s.files path ∨ ∃ op, .file op path ∈ o := by
  cases step with
  | @bindFailed _ m mp gen out files e ops _ _ _ bind
  | @bound _ m mp gen out files ops _ _ _ bind =>
    have hfiles : (bindProjectSocket s.files (socketPathFor env.config.socketDir id.name)
        ⟨id.name, gen⟩ out).1 = files := congrArg Prod.fst bind
    have hops : (bindProjectSocket s.files (socketPathFor env.config.socketDir id.name)
        ⟨id.name, gen⟩ out).2.2 = ops := congrArg (fun r => r.2.2) bind
    by_cases hpath : path = socketPathFor env.config.socketDir id.name
    · have hunlink : FileOp.unlink ∈ ops := by
        rw [← hops]
        rcases out with ⟨_ | _, _ | _, _ | _, _⟩ <;> simp [bindProjectSocket, bindSocket]
      exact .inr ⟨.unlink, List.mem_append_left _ (mem_fileObs.mpr ⟨hunlink, hpath⟩)⟩
    · left
      show files path = s.files path
      rw [← hfiles]
      exact bindSocket_other hpath
  | @unlinked reg p error task project =>
    by_cases hpath : path = p.socketPath
    · exact .inr ⟨.unlink, by simp [hpath]⟩
    · left
      cases error <;> simp [hpath]
  | _ => exact .inl rfl

/-- What a step of the whole daemon does to the files in the socket directory. -/
theorem WholeStep.files_cases {a : WholeAction} (step : WholeStep env s a t o)
    (hadmin : path ≠ adminPath env.config.socketDir) :
    t.files path = s.files path ∨ ∃ op, .file op path ∈ o := by
  cases step with
  | act step =>
    cases step with
    | admin step => exact step.files_cases
    | loop step => exact .inl (by rw [step.frame.2.2.2])
    | conn | rotate | status | writer => exact .inl rfl
  | stilled _ _ files => exact .inl (files path hadmin)
  | @unlinked reg p error project =>
    by_cases hpath : path = p.socketPath
    · exact .inr ⟨.unlink, by simp [hpath]⟩
    · left
      cases error <;> simp [hpath]
  | taken | dropped => exact .inl rfl

/-- The files that a step of the whole daemon shows an operation on are sockets of valid names. -/
theorem WholeStep.file_mem {a : WholeAction} {op : FileOp} (hrec : Records env s)
    (step : WholeStep env s a t o) (h : .file op path ∈ o) :
    ∃ n, SocketOf env.config.socketDir n path := by
  cases step with
  | act step =>
    cases step with
    | @admin id a _ _ step =>
      obtain ⟨hpath, hvalid, -⟩ := step.file_mem hrec h
      exact ⟨id.name, hpath ▸ socketOf_valid hvalid⟩
    | conn _ _ step => cases step <;> simp at h
    | loop | rotate | status | writer => simp at h
  | @unlinked reg p error project =>
    have hpath : op = .unlink ∧ path = p.socketPath := by simpa using h
    rw [hpath.2, (hrec.project reg p project).2.1]
    exact ⟨reg.name, socketOf_valid (hrec.valid_name (by simp [project]))⟩
  | stilled | taken | dropped => simp at h

/-- The operations shown so far are on sockets of valid names, and they are behind every change of
a file since `start`. -/
structure FilesConfined (env : Env) (start : Daemon) (tr : List Obs) (s : Daemon) : Prop where
  shown : ∀ op path, .file op path ∈ tr → ∃ n, SocketOf env.config.socketDir n path
  changed : ∀ path, path ≠ adminPath env.config.socketDir → s.files path ≠ start.files path →
    ∃ op, .file op path ∈ tr

theorem FilesConfined.whole {start : Daemon} {a : WholeAction}
    (h : FilesConfined env start tr s) (hrec : Records env s) (step : WholeStep env s a t o) :
    FilesConfined env start (tr ++ o) t := by
  constructor
  · intro op path hmem
    rcases List.mem_append.mp hmem with hold | hnew
    · exact h.shown op path hold
    · exact step.file_mem hrec hnew
  · intro path hadmin hne
    rcases step.files_cases hadmin with hsame | ⟨op, hop⟩
    · obtain ⟨op, hop⟩ := h.changed path hadmin (hsame ▸ hne)
      exact ⟨op, List.mem_append_left o hop⟩
    · exact ⟨op, List.mem_append_right tr hop⟩

theorem wholeRun_filesConfined {backend : Option Session} {stale : Daemon.Stale}
    {as : List WholeAction} (hrun : wholeRun env backend stale as = some (s, tr)) :
    FilesConfined env (Daemon.init env backend stale) tr s := by
  have h : Records env s ∧ FilesConfined env (Daemon.init env backend stale) tr s := by
    refine Machine.exec_induction (I := fun tr s =>
      Records env s ∧ FilesConfined env (Daemon.init env backend stale) tr s)
      ⟨Records.initial, by simp, fun _ _ hne => absurd rfl hne⟩ ?_ hrun
    intro tr s a t o h hstep
    have step := wholeStep_cases hstep
    exact ⟨h.1.whole step, h.2.whole h.1 step⟩
  exact h.2

/-- In every state of every run, shutdown included: the names in the registry are valid and are
those of the manifests of their projects; an operation on a file for a project is on the socket of a
valid name, directly in the socket directory; and no other file there has changed. -/
theorem registry_confined {backend : Option Session} {stale : Daemon.Stale}
    {as : List WholeAction} (hrun : wholeRun env backend stale as = some (s, tr)) :
    (∀ name reg, s.inner.lookup name = some reg → name.toList ∈ projectNamePattern ∧
      ∃ p, s.projects reg = some p ∧ p.manifest.project.name = name) ∧
    (∀ op path, .file op path ∈ tr → ∃ n, SocketOf env.config.socketDir n path) ∧
    (∀ path, path ≠ adminPath env.config.socketDir →
      s.files path ≠ (Daemon.init env backend stale).files path → ∃ op, .file op path ∈ tr) := by
  have hrec := wholeRun_records hrun
  have hfiles := wholeRun_filesConfined hrun
  refine ⟨fun name reg found => ?_, hfiles.shown, hfiles.changed⟩
  obtain ⟨hreg, hsome⟩ := hrec.inner name reg found
  obtain ⟨p, hp⟩ := Option.isSome_iff_exists.mp hsome
  have hname := hrec.valid_name hsome
  rw [hreg] at hname
  exact ⟨isValidProjectName_iff.mp hname, p, hp, (hrec.project reg p hp).2.2.trans hreg⟩

/-- A project is registered, and its socket is removed by a shutdown. -/
theorem registry_confined_web : ∃ s tr, wholeRun webEnv none (fun _ => none)
      ((Action.register ⟨"web", 0⟩ "/srv/web" "web" 0).map .act ++ [.unlink ⟨"web", 0⟩ none]) =
        some (s, tr) ∧
    ∀ op path, .file op path ∈ tr → ∃ n, SocketOf webEnv.config.socketDir n path := by
  obtain ⟨⟨s, tr⟩, hrun⟩ := Option.isSome_iff_exists.mp
    (show (wholeRun webEnv none (fun _ => none)
      ((Action.register ⟨"web", 0⟩ "/srv/web" "web" 0).map .act ++
        [.unlink ⟨"web", 0⟩ none])).isSome = true by decide +kernel)
  exact ⟨s, tr, hrun, (registry_confined hrun).2.1⟩

end

end RemoBroker
