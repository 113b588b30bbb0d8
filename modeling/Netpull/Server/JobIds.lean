import Netpull.LexicalPath
import Netpull.Server.Job

/-!
# Where the log of a job lies

The id of a job to continue comes from the client and is joined to the directory of the logs. Its
own `.` and `..` decide where that leads: `idConfined_iff` says for which ids `Job::Load` opens
nothing but files directly inside the directory.
-/

namespace Netpull

open Lexical Separated

/-! ## The path of a log -/

/-- The directory of the logs. -/
def netpullDir (env : Environment) : Bytes := join env.xdgCacheHome (text "netpull")

theorem netpullDir_cases (env : Environment) : ∃ c, netpullDir env = c ++ slash :: text "netpull" ∧
    (env.xdgCacheHome = c ∨ env.xdgCacheHome = c ++ [slash]) := by
  have hother : startsWith (text "netpull") [slash] = false := rfl
  have hend : ∀ p : Bytes, endsWith (p ++ text "netpull") [slash] = false := by
    intro p
    rw [endsWith_append (by decide)]
    rfl
  by_cases hself : endsWith env.xdgCacheHome [slash] = true
  · obtain ⟨c, hc⟩ := endsWith_iff.1 hself
    refine ⟨c, ?_, Or.inr hc.symm⟩
    simp only [netpullDir, join, hself, hother, Bool.and_false, Bool.false_eq_true, if_false,
      Bool.not_true, Bool.false_and, hend]
    rw [← hc]
    simp
  · rw [Bool.not_eq_true] at hself
    refine ⟨env.xdgCacheHome, ?_, Or.inl rfl⟩
    simp only [netpullDir, join, hself, hother, Bool.false_eq_true, if_false, Bool.not_false,
      Bool.and_self, if_true, hend]
    simp

theorem netpullDir_ne_nil (env : Environment) : netpullDir env ≠ [] := by
  obtain ⟨c, hdir, -⟩ := netpullDir_cases env
  rw [hdir]
  simp

theorem nul_not_mem_netpullDir {env : Environment} (h : 0 ∉ env.xdgCacheHome) :
    0 ∉ netpullDir env := by
  obtain ⟨c, hdir, hc⟩ := netpullDir_cases env
  have hc' : 0 ∉ c := by
    rcases hc with hc | hc
    · rwa [← hc]
    · rw [hc] at h
      exact fun hmem => h (List.mem_append_left _ hmem)
  have hname : (0 : UInt8) ∉ slash :: text "netpull" := by decide
  rw [hdir, List.mem_append, not_or]
  exact ⟨hc', hname⟩

/-- The last step to the directory. -/
theorem lexicalPlace_netpullDir (env : Environment) :
    ∃ p : Place Bytes, lexicalPlace (netpullDir env) = p.go (.down (text "netpull")) := by
  obtain ⟨c, hdir, -⟩ := netpullDir_cases env
  rw [hdir]
  by_cases hc : c = []
  · subst hc
    exact ⟨Place.origin true, rfl⟩
  · exact ⟨lexicalPlace c, lexicalPlace_append hc _⟩

/-- The slash that `Join` takes from the end of its result names the same place. -/
theorem lexicalPlace_cstr_slash {p : Bytes} (h : p ≠ []) :
    lexicalPlace (cstr (p ++ [slash])) = lexicalPlace (cstr p) := by
  rw [lexicalPlace, lexicalPlace, isAbsolute_cstr, isAbsolute_cstr, isAbsolute_append h,
    lexicalSteps, lexicalSteps, components_cstr_slash]

/-- What is joined to a directory is resolved from there. -/
theorem lexicalPlace_join {dir : Bytes} (hdir : endsWith dir [slash] = false) (hne : dir ≠ [])
    (hnul : 0 ∉ dir) (id : Bytes) :
    lexicalPlace (cstr (join dir id)) = (lexicalPlace dir).walk (lexicalSteps (cstr id)) := by
  have hplace : ∀ id', lexicalPlace (cstr (dir ++ slash :: id')) =
      (lexicalPlace dir).walk (lexicalSteps (cstr id')) := by
    intro id'
    have hslash : cstr (slash :: id') = slash :: cstr id' := rfl
    rw [cstr_append hnul, hslash, lexicalPlace_append hne]
  have hstrip : ∀ id', lexicalPlace (cstr (if endsWith (dir ++ slash :: id') [slash] = true then
      (dir ++ slash :: id').dropLast else dir ++ slash :: id')) =
        lexicalPlace (cstr (dir ++ slash :: id')) := by
    intro id'
    split
    · next hend =>
      obtain ⟨q, hq⟩ := endsWith_iff.1 hend
      have hqne : q ≠ [] := by
        rintro rfl
        obtain ⟨b, dir, rfl⟩ := List.exists_cons_of_ne_nil hne
        simp at hq
      rw [← hq, List.dropLast_concat, lexicalPlace_cstr_slash hqne]
    · rfl
  unfold join
  rw [hdir]
  by_cases hother : startsWith id [slash] = true
  · obtain ⟨id', rfl⟩ := startsWith_iff.1 hother
    have hsteps : lexicalSteps (cstr ([slash] ++ id')) = lexicalSteps (cstr id') := by
      have hslash : cstr ([slash] ++ id') = slash :: cstr id' := rfl
      rw [hslash, lexicalSteps, components_slash]
      rfl
    simp only [hother, Bool.false_and, Bool.false_eq_true, if_false, Bool.not_false, Bool.not_true,
      Bool.and_false]
    rw [hsteps, ← hplace]
    exact hstrip id'
  · rw [Bool.not_eq_true] at hother
    simp only [hother, Bool.false_eq_true, if_false, Bool.not_false, Bool.and_self, if_true,
      List.append_assoc, List.singleton_append]
    rw [hstrip, hplace]

theorem lexicalPlace_logPath {env : Environment} (h : 0 ∉ env.xdgCacheHome) (id : Bytes) :
    lexicalPlace (cstr (Job.logPath env id)) =
      (lexicalPlace (netpullDir env)).walk (lexicalSteps (cstr id)) := by
  have hend : endsWith (netpullDir env) [slash] = false := by
    obtain ⟨c, hdir, -⟩ := netpullDir_cases env
    rw [hdir, ← List.singleton_append, ← List.append_assoc, endsWith_append (by decide)]
    rfl
  exact lexicalPlace_join hend (netpullDir_ne_nil env) (nul_not_mem_netpullDir h) id

/-! ## Confined ids -/

/-- The disk, which does not open the directory of the logs as a file. -/
structure Disk (env : Environment) where
  openLog : Bytes → Option Job.LogFile
  noDirectory : ∀ p, lexicalPlace p = lexicalPlace (netpullDir env) → openLog p = none

/-- The path names something directly inside the directory. -/
def DirectlyInside (dir p : Bytes) : Prop :=
  ∃ name, lexicalPlace p =
    { lexicalPlace dir with names := (lexicalPlace dir).names ++ [name] }

/-- Whatever the cache home and the disk, `Job::Load` refuses the id or opens a file directly inside
the directory of the logs. -/
def IdConfined (id : Bytes) : Prop :=
  ∀ env : Environment, 0 ∉ env.xdgCacheHome → ∀ disk : Disk env,
    Job.load env disk.openLog id = none ∨
      DirectlyInside (netpullDir env) (cstr (Job.logPath env id))

/-- The id, up to its first NUL and with its own `.` and `..` resolved, is at most one name, with
nothing or `../netpull` in front. -/
def AtMostOneName (id : Bytes) : Prop :=
  let p := reduce (lexicalSteps (cstr id))
  ∃ ns, ns.length ≤ 1 ∧ (p.ups = 0 ∧ p.names = ns ∨ p.ups = 1 ∧ p.names = text "netpull" :: ns)

/-- Such an id names the directory, or something in it. -/
theorem AtMostOneName.walk_eq {id : Bytes} (h : AtMostOneName id) (env : Environment) :
    ∃ ns, ns.length ≤ 1 ∧ (lexicalPlace (netpullDir env)).walk (lexicalSteps (cstr id)) =
      { lexicalPlace (netpullDir env) with
        names := (lexicalPlace (netpullDir env)).names ++ ns } := by
  obtain ⟨ns, hlen, ⟨hups, hnames⟩ | ⟨hups, hnames⟩⟩ := h
  · refine ⟨ns, hlen, ?_⟩
    rw [← walk_reduce, Place.steps, hups, hnames, List.replicate_zero, List.nil_append,
      Place.walk_down]
  · refine ⟨ns, hlen, ?_⟩
    obtain ⟨p, hp⟩ := lexicalPlace_netpullDir env
    rw [← walk_reduce, Place.steps, hups, hnames, Place.walk_append, hp, List.replicate_one,
      Place.walk_cons, Place.go_down_up, Place.walk_nil, Place.walk_down]
    simp [Place.go]

theorem idConfined_of_atMostOneName {id : Bytes} (h : AtMostOneName id) : IdConfined id := by
  intro env hnul disk
  obtain ⟨ns, hlen, hwalk⟩ := h.walk_eq env
  rw [← lexicalPlace_logPath hnul] at hwalk
  obtain _ | ⟨n, _ | ⟨m, ns⟩⟩ := ns
  · left
    have hnone : disk.openLog (cstr (Job.logPath env id)) = none := by
      apply disk.noDirectory
      rw [hwalk, List.append_nil]
    rw [Job.load, hnone]
  · exact Or.inr ⟨n, hwalk⟩
  · simp at hlen

/-! ## Ids that lead elsewhere -/

/-- A cache home some levels below the root. -/
def deepCache (name : Bytes) (depth : Nat) : Environment :=
  ⟨spell slash (List.replicate depth name)⟩

theorem lexicalPlace_deepCache {name : Bytes} (h : ProperName name) (depth : Nat) :
    lexicalPlace (netpullDir (deepCache name depth)) =
      ⟨true, 0, List.replicate depth name ++ [text "netpull"]⟩ := by
  have hnetpull : ProperName (text "netpull") := by decide
  have hnames : ∀ n ∈ List.replicate depth name, ProperName n := by
    intro n hn
    rwa [List.eq_of_mem_replicate hn]
  cases depth with
  | zero => rfl
  | succ depth =>
    have hdir : netpullDir (deepCache name (depth + 1)) =
        spell slash (List.replicate (depth + 1) name ++ [text "netpull"]) :=
      join_name (by simp [List.replicate_succ]) hnames hnetpull
    rw [hdir, lexicalPlace_spell (by simp)]
    intro n hn
    rcases List.mem_append.1 hn with hn | hn
    · exact hnames n hn
    · rwa [List.mem_singleton.1 hn]

theorem nul_not_mem_deepCache {name : Bytes} (h : 0 ∉ name) (depth : Nat) :
    0 ∉ (deepCache name depth).xdgCacheHome := by
  intro hmem
  obtain ⟨n, hn, hmem⟩ := List.mem_flatMap.1 hmem
  rw [List.eq_of_mem_replicate hn] at hmem
  rcases List.mem_cons.1 hmem with h0 | hmem
  · cases h0
  · exact h hmem

/-- What `Job::New` leaves for the path `/x`. -/
def newLog : Bytes := Job.logHeader Job.epoch (text "/x")

theorem isResolved_newLog : isResolved (Job.loadLines newLog).pathStr = true := by
  have hname : newline ∉ text "/x" := by decide
  have hbody : ∀ l ∈ Lines.lines newline ([] : Bytes), ¬ kPathPrefix <+: l :=
    fun l hl => absurd hl List.not_mem_nil
  have hpath := (Job.loadLines_log hname Job.epoch hbody).1
  rw [List.append_nil] at hpath
  rw [newLog, hpath]
  rfl

/-- A disk on which every file is such a log. -/
def fullDisk (env : Environment) : Disk env where
  openLog p :=
    if lexicalPlace p = lexicalPlace (netpullDir env) then none else some ⟨newLog, true⟩
  noDirectory _ h := if_pos h

theorem fullDisk_openLog (env : Environment) {p : Bytes}
    (h : lexicalPlace p ≠ lexicalPlace (netpullDir env)) :
    (fullDisk env).openLog p = some ⟨newLog, true⟩ := by
  simp only [fullDisk, if_neg h]

theorem load_fullDisk {env : Environment} {id : Bytes}
    (h : Job.load env (fullDisk env).openLog id = none) :
    lexicalPlace (cstr (Job.logPath env id)) = lexicalPlace (netpullDir env) := by
  by_contra hne
  rw [Job.load, fullDisk_openLog env hne] at h
  simp only [isResolved_newLog, Bool.not_true, Bool.false_eq_true, if_false] at h
  cases h

/-- On a full disk, a confined id names the directory, or something in it. -/
theorem IdConfined.walk_eq {id : Bytes} (h : IdConfined id) {env : Environment}
    (hnul : 0 ∉ env.xdgCacheHome) :
    ∃ ns, ns.length ≤ 1 ∧ (lexicalPlace (netpullDir env)).walk (lexicalSteps (cstr id)) =
      { lexicalPlace (netpullDir env) with
        names := (lexicalPlace (netpullDir env)).names ++ ns } := by
  rw [← lexicalPlace_logPath hnul]
  rcases h env hnul (fullDisk env) with hnone | ⟨n, hinside⟩
  · refine ⟨[], Nat.zero_le 1, ?_⟩
    rw [load_fullDisk hnone, List.append_nil]
  · exact ⟨[n], le_rfl, hinside⟩

/-- A name that a list does not begin with. -/
def otherName (names : List Bytes) : Bytes :=
  if names.head? = some (text "a") then text "b" else text "a"

theorem otherName_ne_head (names : List Bytes) : names.head? ≠ some (otherName names) := by
  unfold otherName
  split
  · next h =>
    rw [h]
    decide
  · next h => exact h

theorem properName_otherName (names : List Bytes) : ProperName (otherName names) := by
  unfold otherName
  split <;> decide

theorem nul_not_mem_otherName (names : List Bytes) : 0 ∉ otherName names := by
  unfold otherName
  split <;> decide

/-- A confined id goes up once at most, and then down to `netpull` again: below a deep cache home
with other names it cannot come back from further up. -/
theorem atMostOneName_of_idConfined {id : Bytes} (h : IdConfined id) : AtMostOneName id := by
  have hother := otherName_ne_head (reduce (lexicalSteps (cstr id))).names
  obtain ⟨ns, hlen, hwalk⟩ := h.walk_eq (nul_not_mem_deepCache
    (nul_not_mem_otherName (reduce (lexicalSteps (cstr id))).names)
    (reduce (lexicalSteps (cstr id))).ups)
  rw [lexicalPlace_deepCache (properName_otherName _), ← walk_reduce, Place.steps,
    Place.walk_append] at hwalk
  refine ⟨ns, hlen, ?_⟩
  generalize otherName (reduce (lexicalSteps (cstr id))).names = name at hother hwalk
  generalize reduce (lexicalSteps (cstr id)) = p at hother hwalk ⊢
  obtain ⟨rooted, ups, names⟩ := p
  simp only at hother hwalk ⊢
  obtain _ | ups := ups
  · rw [List.replicate_zero, List.replicate_zero, Place.walk_nil, Place.walk_down] at hwalk
    left
    simpa using hwalk
  · have hlevels : List.replicate (ups + 1) name ++ [text "netpull"] =
        [name] ++ (List.replicate ups name ++ [text "netpull"]) := rfl
    have hups : (List.replicate ups name ++ [text "netpull"]).length = ups + 1 := by simp
    rw [Place.walk_up _ hlevels hups, Place.walk_down] at hwalk
    have hnames : name :: names = List.replicate (ups + 1) name ++ text "netpull" :: ns := by
      simpa using hwalk
    obtain _ | ups := ups
    · exact Or.inr ⟨rfl, (List.cons.inj hnames).2⟩
    · rw [List.replicate_succ, List.replicate_succ] at hnames
      have htail := (List.cons.inj hnames).2
      rw [htail] at hother
      exact absurd rfl hother

/-- **Job ids are confined** if and only if they are, with their own `.` and `..` resolved, at most
one name, with nothing or `../netpull` in front. -/
theorem idConfined_iff (id : Bytes) : IdConfined id ↔ AtMostOneName id :=
  ⟨atMostOneName_of_idConfined, idConfined_of_atMostOneName⟩

/-- The id `../x` names a file next to the directory of the logs. -/
theorem parent_not_confined :
    Job.logPath ⟨text "/c"⟩ (text "../x") = text "/c/netpull/../x" ∧
      lexicalPlace (text "/c/netpull/../x") = ⟨true, 0, [text "c", text "x"]⟩ ∧
      ¬ IdConfined (text "../x") := by
  refine ⟨rfl, rfl, ?_⟩
  intro h
  obtain ⟨ns, -, ⟨hups, -⟩ | ⟨-, hnames⟩⟩ := atMostOneName_of_idConfined h
  · cases hups
  · cases hnames

end Netpull
