/-
The files that `bench/driver.c` parses: `vec_push_path`, `is_source_path` and
`collect_sources`, which goes through a directory and those below it.  What the system calls
say about a path is a parameter, and so is which allocations of the driver are served.
-/
import AllocSitter.CStrings
import Mathlib.Data.List.TakeWhile

namespace AllocSitter

namespace Driver

open CStrings

structure SourceFile where
  path : CString
  /-- `none` for `NULL`; `len` is its length. -/
  data : Option (List UInt8)
deriving DecidableEq

/-- A growing array, of which `items` are the first `len` places. -/
structure SourceVec where
  items : List SourceFile
  cap : Nat
  fits : items.length ≤ cap
  tight : cap ≤ max 128 (2 * items.length)

namespace SourceVec

def empty : SourceVec := ⟨[], 0, Nat.le_refl 0, Nat.zero_le _⟩

def paths (vec : SourceVec) : List CString := vec.items.map SourceFile.path

/-- The capacity after `realloc`. -/
def doubled (cap : Nat) : Nat := if cap ≠ 0 then cap * 2 else 128

theorem lt_doubled (cap : Nat) : cap < doubled cap := by
  unfold doubled
  split <;> omega

theorem doubled_le (cap : Nat) : doubled cap ≤ max 128 (2 * cap) := by
  unfold doubled
  split <;> omega

def grow (vec : SourceVec) (hfull : vec.items.length = vec.cap) : SourceVec :=
  ⟨vec.items, doubled vec.cap, hfull ▸ (lt_doubled _).le, hfull ▸ doubled_le _⟩

def push (vec : SourceVec) (file : SourceFile) (hroom : vec.items.length < vec.cap) : SourceVec :=
  ⟨vec.items ++ [file], vec.cap, by rw [List.length_append]; exact hroom, by
    have htight := vec.tight
    rw [List.length_append]
    omega⟩

end SourceVec

/-- The files found so far, and how many allocations the driver has asked for. -/
structure Collection where
  vec : SourceVec
  asked : Nat

namespace Collection

def empty : Collection := ⟨.empty, 0⟩

def paths (c : Collection) : List CString := c.vec.paths

/-- The state after one more call of `malloc` or `realloc`. -/
def ask (c : Collection) : Collection := { c with asked := c.asked + 1 }

end Collection

section Pushing

variable (served : Nat → Bool)

/-- The copy of the path is stored where there is room; the place stays outside the array if
there is no memory for it. -/
def pushCopy (c : Collection) (path : CString) (hroom : c.vec.items.length < c.vec.cap) :
    Collection × Bool :=
  if served c.asked then (⟨c.vec.push ⟨path, none⟩ hroom, c.asked + 1⟩, true)
  else (c.ask, false)

def vecPushPath (c : Collection) (path : CString) : Collection × Bool :=
  if hfull : c.vec.items.length = c.vec.cap then
    if served c.asked then
      pushCopy served ⟨c.vec.grow hfull, c.asked + 1⟩ path
        (Nat.lt_of_le_of_lt (Nat.le_of_eq hfull) (SourceVec.lt_doubled _))
    else (c.ask, false)
  else pushCopy served c path (Nat.lt_of_le_of_ne c.vec.fits hfull)

end Pushing

def hasSuffix (s suffix : CString) : Bool :=
  decide (suffix.length ≤ s.length ∧ strcmp (s.drop (s.length - suffix.length)) suffix = 0)

def isSourcePath (path : CString) (includeHeaders : Bool) : Bool :=
  hasSuffix path (ascii ['.', 'c']) || (includeHeaders && hasSuffix path (ascii ['.', 'h']))

/-- `st_mode`, as far as the driver looks at it. -/
inductive FileKind where
  | directory
  | regular
  | other
deriving DecidableEq

/-- Longest path that a system call takes, with the byte that ends it. -/
def pathMax : Nat := 4096

/-- What the system calls say about the paths.  It stays so while the driver runs. -/
structure FileSystem where
  /-- The names in the order of `readdir`; `none` if `opendir` fails. -/
  opendir : CString → Option (List CString)
  /-- Symbolic links are followed; `none` for an error. -/
  stat : CString → Option FileKind
  /-- What `read_file` gets from the file; `none` if it fails. -/
  contents : CString → Option (List UInt8)
  names_nodup : ∀ {dir names}, opendir dir = some names → names.Nodup
  name_plain : ∀ {dir names}, opendir dir = some names → ∀ name ∈ names, slash ∉ name
  stat_long : ∀ path, pathMax ≤ path.length → stat path = none

/-- `"%s/%s"`. -/
def join (dir name : CString) : CString := dir ++ slash :: name

/-- The entries for the directory itself and the one above it. -/
def isDots (name : CString) : Bool :=
  strcmp name (ascii ['.']) == 0 || strcmp name (ascii ['.', '.']) == 0

/-- What follows a call that has succeeded; a failure is passed on. -/
def andThen (result : Option (Collection × Bool))
    (next : Collection → Option (Collection × Bool)) : Option (Collection × Bool) :=
  match result with
  | some (c, true) => next c
  | stopped => stopped

section Collecting

variable (fs : FileSystem) (served : Nat → Bool) (includeHeaders : Bool)

/-- One round of the loop, with the call for the directories in this one. -/
def collectEntry (below : CString → Collection → Option (Collection × Bool))
    (root name : CString) (c : Collection) : Option (Collection × Bool) :=
  if isDots name then some (c, true)
  else if served c.asked then
    match fs.stat (join root name) with
    | some .directory => below (join root name) c.ask
    | some .regular =>
        if isSourcePath (join root name) includeHeaders then
          some (vecPushPath served c.ask (join root name))
        else some (c.ask, true)
    | _ => some (c.ask, true)
  else some (c.ask, false)

def collectEntries (below : CString → Collection → Option (Collection × Bool))
    (root : CString) : List CString → Collection → Option (Collection × Bool)
  | [], c => some (c, true)
  | name :: rest, c =>
      andThen (collectEntry fs served includeHeaders below root name c)
        (collectEntries below root rest)

/-- `none` where the recursion goes deeper than `depth`. -/
def collectSources : Nat → CString → Collection → Option (Collection × Bool)
  | 0, _, _ => none
  | depth + 1, root, c =>
      match fs.opendir root with
      | none => some (c, false)
      | some names => collectEntries fs served includeHeaders (collectSources depth) root names c

end Collecting

theorem hasSuffix_iff {s suffix : CString} : hasSuffix s suffix = true ↔ suffix <:+ s := by
  rw [hasSuffix, decide_eq_true_iff, strcmp_eq_zero_iff]
  constructor
  · rintro ⟨_, hdrop⟩
    exact hdrop ▸ List.drop_suffix _ s
  · intro h
    exact ⟨h.length_le, (List.suffix_iff_eq_drop.mp h).symm⟩

section Calls

variable {served : Nat → Bool} {paths : List CString} {closed : Prop} {c : Collection}

/-- What a call that is to add `paths` makes of the array, where `closed` tells that some
directory cannot be opened.  A call that fails has still added the first of them. -/
structure Outcome (served : Nat → Bool) (paths : List CString) (closed : Prop) (c : Collection)
    (result : Collection × Bool) : Prop where
  asked : c.asked ≤ result.1.asked
  added : ∃ front, front <+: paths ∧ result.1.paths = c.paths ++ front
  success : result.2 = true → result.1.paths = c.paths ++ paths ∧ ¬ closed ∧
    ∀ n, c.asked ≤ n → n < result.1.asked → served n = true
  failure : result.2 = false → closed ∨
    ∃ n, c.asked ≤ n ∧ n < result.1.asked ∧ served n = false

theorem Outcome.nothing : Outcome served [] False c (c, true) where
  asked := Nat.le_refl _
  added := ⟨[], List.prefix_rfl, (List.append_nil _).symm⟩
  success _ := ⟨(List.append_nil _).symm, id, fun _ hle hlt => absurd hlt (Nat.not_lt.mpr hle)⟩
  failure := nofun

theorem Outcome.refused (hserved : served c.asked = false) :
    Outcome served paths closed c (c.ask, false) where
  asked := Nat.le_succ _
  added := ⟨[], List.nil_prefix, (List.append_nil _).symm⟩
  success := nofun
  failure _ := .inr ⟨c.asked, Nat.le_refl _, Nat.lt_succ_self _, hserved⟩

/-- A call before which one more allocation was served. -/
theorem Outcome.asking {c₁ : Collection} {result : Collection × Bool}
    (h : Outcome served paths closed c₁ result) (hserved : served c.asked = true)
    (hasked : c₁.asked = c.asked + 1) (hitems : c₁.vec.items = c.vec.items) :
    Outcome served paths closed c result := by
  have hpaths : c₁.paths = c.paths := congrArg (List.map SourceFile.path) hitems
  refine ⟨?_, hpaths ▸ h.added, fun htrue => ?_, fun hfalse => ?_⟩
  · have hle := h.asked
    omega
  · obtain ⟨hall, hopen, hmore⟩ := h.success htrue
    refine ⟨hpaths ▸ hall, hopen, fun n hle hlt => ?_⟩
    rcases Nat.eq_or_lt_of_le hle with heq | hlt'
    · exact heq ▸ hserved
    · exact hmore n (by omega) hlt
  · refine (h.failure hfalse).imp_right ?_
    rintro ⟨n, hle, hlt, hn⟩
    exact ⟨n, by omega, hlt, hn⟩

/-- A call that fails stops the calls after it. -/
theorem Outcome.stop {rest : List CString} {closed' : Prop} {c₁ : Collection}
    (h : Outcome served paths closed c (c₁, false)) :
    Outcome served (paths ++ rest) (closed ∨ closed') c (c₁, false) where
  asked := h.asked
  added := by
    obtain ⟨front, hfront, heq⟩ := h.added
    exact ⟨front, hfront.trans (List.prefix_append paths rest), heq⟩
  success := nofun
  failure _ := (h.failure rfl).imp_left .inl

theorem Outcome.next {rest : List CString} {closed' : Prop} {c₁ : Collection}
    {result : Collection × Bool} (h : Outcome served paths closed c (c₁, true))
    (h' : Outcome served rest closed' c₁ result) :
    Outcome served (paths ++ rest) (closed ∨ closed') c result := by
  obtain ⟨hall, hopen, hserved⟩ := h.success rfl
  refine ⟨h.asked.trans h'.asked, ?_, fun htrue => ?_, fun hfalse => ?_⟩
  · obtain ⟨front, hfront, heq⟩ := h'.added
    refine ⟨paths ++ front, (List.prefix_append_right_inj paths).mpr hfront, ?_⟩
    rw [heq, hall, List.append_assoc]
  · obtain ⟨hall', hopen', hserved'⟩ := h'.success htrue
    refine ⟨by rw [hall', hall, List.append_assoc], not_or.mpr ⟨hopen, hopen'⟩, ?_⟩
    intro n hle hlt
    by_cases hn : n < c₁.asked
    · exact hserved n hle hn
    · exact hserved' n (by omega) hlt
  · refine (h'.failure hfalse).imp .inr ?_
    rintro ⟨n, hle, hlt, hn⟩
    exact ⟨n, h.asked.trans hle, hlt, hn⟩

theorem pushCopy_outcome (path : CString) (hroom : c.vec.items.length < c.vec.cap) :
    Outcome served [path] False c (pushCopy served c path hroom) := by
  unfold pushCopy
  split
  · next hserved =>
    have hpaths : (c.vec.push ⟨path, none⟩ hroom).paths = c.vec.paths ++ [path] := by
      simp [SourceVec.paths, SourceVec.push]
    refine ⟨Nat.le_succ _, ⟨_, List.prefix_rfl, hpaths⟩, fun _ => ⟨hpaths, id, ?_⟩, nofun⟩
    intro n hle hlt
    rwa [Nat.le_antisymm (Nat.le_of_lt_succ hlt) hle]
  · next hserved => exact .refused (Bool.eq_false_iff.mpr hserved)

theorem vecPushPath_outcome (path : CString) :
    Outcome served [path] False c (vecPushPath served c path) := by
  unfold vecPushPath
  split
  · split
    · next hserved => exact (pushCopy_outcome path _).asking hserved rfl rfl
    · next hserved => exact .refused (Bool.eq_false_iff.mpr hserved)
  · exact pushCopy_outcome path _

end Calls

section Walk

variable (fs : FileSystem) (includeHeaders : Bool)

/-- An entry that the loop looks at. -/
def Entry (dir name : CString) : Prop :=
  ∃ names, fs.opendir dir = some names ∧ name ∈ names ∧ isDots name = false

/-- The directories that `collect_sources` is called for. -/
inductive Visits (root : CString) : CString → Prop where
  | root : Visits root root
  | inside {dir name : CString} (above : Visits root dir) (entry : Entry fs dir name)
      (kind : fs.stat (join dir name) = some .directory) : Visits root (join dir name)

/-- Some directory on the way cannot be opened. -/
def Closed (root : CString) : Prop := ∃ dir, Visits fs root dir ∧ fs.opendir dir = none

/-- A regular file in a directory that is visited, with the name of a source. -/
def Source (root path : CString) : Prop :=
  ∃ dir name, Visits fs root dir ∧ Entry fs dir name ∧ path = join dir name ∧
    fs.stat path = some .regular ∧
    (ascii ['.', 'c'] <:+ path ∨ includeHeaders = true ∧ ascii ['.', 'h'] <:+ path)

/-- The sources that one entry leads to, given those below each directory. -/
def entrySources (below : CString → List CString) (root name : CString) : List CString :=
  if isDots name then []
  else
    match fs.stat (join root name) with
    | some .directory => below (join root name)
    | some .regular =>
        if isSourcePath (join root name) includeHeaders then [join root name] else []
    | _ => []

/-- The sources in the order in which they are found. -/
def sourcesBelow : Nat → CString → List CString
  | 0, _ => []
  | depth + 1, root =>
      ((fs.opendir root).getD []).flatMap (entrySources fs includeHeaders (sourcesBelow depth) root)

variable {fs includeHeaders} {served : Nat → Bool} {root dir name path : CString} {depth : Nat}

theorem Visits.head (hentry : Entry fs root name)
    (hkind : fs.stat (join root name) = some .directory) (h : Visits fs (join root name) dir) :
    Visits fs root dir := by
  induction h with
  | root => exact .inside .root hentry hkind
  | inside _ entry kind ih => exact .inside ih entry kind

theorem Visits.cases_head (h : Visits fs root dir) :
    dir = root ∨ ∃ name, Entry fs root name ∧ fs.stat (join root name) = some .directory ∧
      Visits fs (join root name) dir := by
  induction h with
  | root => exact .inl rfl
  | inside _ entry kind ih =>
      rcases ih with rfl | ⟨name, hentry, hkind, hbelow⟩
      · exact .inr ⟨_, entry, kind, .root⟩
      · exact .inr ⟨name, hentry, hkind, .inside hbelow entry kind⟩

theorem closed_iff {names : List CString} (hopen : fs.opendir root = some names) :
    Closed fs root ↔ ∃ name ∈ names, isDots name = false ∧
      fs.stat (join root name) = some .directory ∧ Closed fs (join root name) := by
  constructor
  · rintro ⟨dir, hvisits, hclosed⟩
    rcases hvisits.cases_head with rfl | ⟨name, ⟨_, hopen', hmem, hdots⟩, hkind, hbelow⟩
    · rw [hopen] at hclosed
      contradiction
    · obtain rfl := Option.some.inj (hopen.symm.trans hopen')
      exact ⟨name, hmem, hdots, hkind, dir, hbelow, hclosed⟩
  · rintro ⟨name, hmem, hdots, hkind, dir, hbelow, hclosed⟩
    exact ⟨dir, hbelow.head ⟨names, hopen, hmem, hdots⟩ hkind, hclosed⟩

section Loop

variable {below : CString → Collection → Option (Collection × Bool)}
  {paths : CString → List CString} {closed : CString → Prop} {c : Collection}
  {result : Collection × Bool}

theorem collectEntry_outcome
    (hbelow : ∀ path c result, below path c = some result →
      Outcome served (paths path) (closed path) c result)
    (h : collectEntry fs served includeHeaders below root name c = some result) :
    Outcome served (entrySources fs includeHeaders paths root name)
      (isDots name = false ∧ fs.stat (join root name) = some .directory ∧
        closed (join root name)) c result := by
  unfold collectEntry at h
  unfold entrySources
  by_cases hdots : isDots name = true
  · rw [if_pos hdots] at h ⊢
    cases h
    simpa [hdots] using Outcome.nothing
  rw [if_neg hdots] at h ⊢
  by_cases hserved : served c.asked = true
  · rw [if_pos hserved] at h
    have hpassed : Outcome served [] False c (c.ask, true) := Outcome.nothing.asking hserved rfl rfl
    cases hkind : fs.stat (join root name) with
    | none =>
        rw [hkind] at h
        cases h
        simpa using hpassed
    | some kind =>
        rw [hkind] at h
        cases kind with
        | directory => simpa [hdots] using (hbelow _ _ _ h).asking hserved rfl rfl
        | other =>
            cases h
            simpa using hpassed
        | regular =>
            dsimp only at h ⊢
            split at h <;> cases h
            · next hsource =>
              have hpush : Outcome served [join root name] False c.ask _ :=
                vecPushPath_outcome (join root name)
              simpa [hsource] using hpush.asking hserved rfl rfl
            · next hsource => simpa [hsource] using hpassed
  · rw [if_neg hserved] at h
    cases h
    exact .refused (Bool.eq_false_iff.mpr hserved)

theorem collectEntries_outcome
    (hbelow : ∀ path c result, below path c = some result →
      Outcome served (paths path) (closed path) c result) (names : List CString)
    (h : collectEntries fs served includeHeaders below root names c = some result) :
    Outcome served (names.flatMap (entrySources fs includeHeaders paths root))
      (∃ name ∈ names, isDots name = false ∧ fs.stat (join root name) = some .directory ∧
        closed (join root name)) c result := by
  induction names generalizing c with
  | nil =>
      cases h
      simpa using Outcome.nothing
  | cons name rest ih =>
      rw [List.flatMap_cons]
      simp only [List.mem_cons, exists_eq_or_imp]
      unfold collectEntries at h
      match hentry : collectEntry fs served includeHeaders below root name c with
      | none =>
          rw [hentry] at h
          cases h
      | some (c₁, false) =>
          rw [hentry] at h
          cases h
          exact (collectEntry_outcome hbelow hentry).stop
      | some (c₁, true) =>
          rw [hentry] at h
          exact (collectEntry_outcome hbelow hentry).next (ih h)

end Loop

theorem collectSources_outcome {c : Collection} {result : Collection × Bool}
    (h : collectSources fs served includeHeaders depth root c = some result) :
    Outcome served (sourcesBelow fs includeHeaders depth root) (Closed fs root) c result := by
  induction depth generalizing root c result with
  | zero => cases h
  | succ depth ih =>
      unfold collectSources at h
      unfold sourcesBelow
      cases hopen : fs.opendir root with
      | none =>
          rw [hopen] at h
          cases h
          exact ⟨Nat.le_refl _, ⟨[], List.nil_prefix, (List.append_nil _).symm⟩, nofun,
            fun _ => .inl ⟨root, .root, hopen⟩⟩
      | some names =>
          rw [hopen] at h
          rw [closed_iff hopen]
          exact collectEntries_outcome (fun _ _ _ hbelow => ih hbelow) names h

theorem length_join : (join dir name).length = dir.length + name.length + 1 := by
  simp [join, Nat.add_assoc]

/-- A path that `stat` knows is longer than that of its directory and still short. -/
theorem length_lt_of_stat {kind : FileKind} (h : fs.stat (join dir name) = some kind) :
    dir.length + 1 ≤ (join dir name).length ∧ (join dir name).length < pathMax := by
  refine ⟨by rw [length_join]; omega, Nat.lt_of_not_le fun hlong => ?_⟩
  rw [fs.stat_long _ hlong] at h
  contradiction

theorem isSourcePath_iff : isSourcePath path includeHeaders = true ↔
    ascii ['.', 'c'] <:+ path ∨ includeHeaders = true ∧ ascii ['.', 'h'] <:+ path := by
  simp only [isSourcePath, Bool.or_eq_true, Bool.and_eq_true, hasSuffix_iff]

theorem mem_entrySources {below : CString → List CString} :
    path ∈ entrySources fs includeHeaders below root name ↔ isDots name = false ∧
      (fs.stat (join root name) = some .directory ∧ path ∈ below (join root name) ∨
        fs.stat (join root name) = some .regular ∧
          isSourcePath (join root name) includeHeaders = true ∧ path = join root name) := by
  unfold entrySources
  by_cases hdots : isDots name = true
  · simp [hdots]
  · rcases hkind : fs.stat (join root name) with _ | _ | _ | _
    · simp
    · simp [hdots]
    · by_cases hsource : isSourcePath (join root name) includeHeaders = true
      · simp [hdots, hsource]
      · simp [hsource]
    · simp

theorem mem_sourcesBelow_succ : path ∈ sourcesBelow fs includeHeaders (depth + 1) root ↔
    ∃ name, Entry fs root name ∧
      (fs.stat (join root name) = some .directory ∧
          path ∈ sourcesBelow fs includeHeaders depth (join root name) ∨
        fs.stat (join root name) = some .regular ∧
          isSourcePath (join root name) includeHeaders = true ∧ path = join root name) := by
  rw [sourcesBelow, List.mem_flatMap]
  simp only [mem_entrySources, Entry]
  constructor
  · rintro ⟨name, hmem, hdots, hfound⟩
    cases hopen : fs.opendir root with
    | none => simp [hopen] at hmem
    | some names => exact ⟨name, ⟨names, rfl, by simpa [hopen] using hmem, hdots⟩, hfound⟩
  · rintro ⟨name, ⟨names, hopen, hmem, hdots⟩, hfound⟩
    exact ⟨name, by simpa [hopen] using hmem, hdots, hfound⟩

theorem source_of_mem (h : path ∈ sourcesBelow fs includeHeaders depth root) :
    Source fs includeHeaders root path := by
  induction depth generalizing root with
  | zero => simp [sourcesBelow] at h
  | succ depth ih =>
      obtain ⟨name, hentry, ⟨hkind, hbelow⟩ | ⟨hkind, hsource, rfl⟩⟩ := mem_sourcesBelow_succ.mp h
      · obtain ⟨dir, file, hvisits, hfile⟩ := ih hbelow
        exact ⟨dir, file, hvisits.head hentry hkind, hfile⟩
      · exact ⟨root, name, .root, hentry, rfl, hkind, isSourcePath_iff.mp hsource⟩

/-- No source is missed, as the paths get longer with the depth. -/
theorem mem_of_source (hdepth : pathMax ≤ depth + root.length)
    (h : Source fs includeHeaders root path) :
    path ∈ sourcesBelow fs includeHeaders (depth + 1) root := by
  induction depth generalizing root with
  | zero =>
      obtain ⟨dir, name, hvisits, hentry, rfl, hkind, hsource⟩ := h
      rcases hvisits.cases_head with rfl | ⟨above, _, hkind', _⟩
      · have hlong := length_lt_of_stat hkind
        omega
      · have hlong := length_lt_of_stat hkind'
        omega
  | succ depth ih =>
      obtain ⟨dir, name, hvisits, hentry, hpath, hkind, hsource⟩ := h
      rw [mem_sourcesBelow_succ]
      rcases hvisits.cases_head with rfl | ⟨above, hentry', hkind', hbelow⟩
      · rw [hpath] at hkind hsource
        exact ⟨name, hentry, .inr ⟨hkind, isSourcePath_iff.mpr hsource, hpath⟩⟩
      · have hlong := length_lt_of_stat hkind'
        refine ⟨above, hentry', .inl ⟨hkind', ih (by omega) ?_⟩⟩
        exact ⟨dir, name, hbelow, hentry, hpath, hkind, hsource⟩

theorem join_join {rest : CString} : join (join root name) rest = join root (join name rest) := by
  simp [join]

theorem Visits.path_eq (h : Visits fs root dir) : dir = root ∨ ∃ rest, dir = join root rest := by
  induction h with
  | root => exact .inl rfl
  | inside _ _ _ ih =>
      rcases ih with rfl | ⟨rest, rfl⟩
      · exact .inr ⟨_, rfl⟩
      · exact .inr ⟨_, join_join⟩

theorem Source.path_eq (h : Source fs includeHeaders root path) : ∃ rest, path = join root rest := by
  obtain ⟨dir, name, hvisits, _, rfl, _⟩ := h
  rcases hvisits.path_eq with rfl | ⟨rest, rfl⟩
  · exact ⟨name, rfl⟩
  · exact ⟨_, join_join⟩

/-- The entry of `root` that a path below it leads through. -/
def component (root path : CString) : CString :=
  (path.drop (root.length + 1)).takeWhile (· ≠ slash)

theorem drop_join : (join root name).drop (root.length + 1) = name := by
  rw [join, ← List.drop_drop, List.drop_left]
  rfl

theorem component_join (hplain : slash ∉ name) : component root (join root name) = name := by
  rw [component, drop_join, List.takeWhile_eq_self_iff]
  intro c hc
  exact decide_eq_true fun heq => hplain (heq ▸ hc)

theorem component_join_join {rest : CString} (hplain : slash ∉ name) :
    component root (join root (join name rest)) = name := by
  rw [component, drop_join, join, List.takeWhile_append_of_pos]
  · simp
  · intro c hc
    exact decide_eq_true fun heq => hplain (heq ▸ hc)

theorem component_of_mem (hplain : slash ∉ name)
    (h : path ∈ entrySources fs includeHeaders (sourcesBelow fs includeHeaders depth) root name) :
    component root path = name := by
  obtain ⟨_, ⟨_, hbelow⟩ | ⟨_, _, rfl⟩⟩ := mem_entrySources.mp h
  · obtain ⟨rest, rfl⟩ := (source_of_mem hbelow).path_eq
    rw [join_join]
    exact component_join_join hplain
  · exact component_join hplain

theorem nodup_sourcesBelow : (sourcesBelow fs includeHeaders depth root).Nodup := by
  induction depth generalizing root with
  | zero => exact List.nodup_nil
  | succ depth ih =>
      rw [sourcesBelow]
      cases hopen : fs.opendir root with
      | none => exact List.nodup_nil
      | some names =>
          have hplain := fs.name_plain hopen
          refine List.nodup_flatMap.mpr ⟨fun name _ => ?_, ?_⟩
          · unfold entrySources
            split
            · exact List.nodup_nil
            · split
              · exact ih
              · split
                · exact List.nodup_singleton _
                · exact List.nodup_nil
              · exact List.nodup_nil
          · refine (fs.names_nodup hopen).imp_of_mem fun hname hother hne => ?_
            intro path hpath hpath'
            exact hne ((component_of_mem (hplain _ hname) hpath).symm.trans
              (component_of_mem (hplain _ hother) hpath'))

section Recursion

variable {below deeper : CString → Collection → Option (Collection × Bool)} {c : Collection}
  {result : Collection × Bool}

theorem andThen_eq_some {called : Option (Collection × Bool)}
    {next : Collection → Option (Collection × Bool)} :
    andThen called next = some result ↔ (called = some result ∧ result.2 = false) ∨
      ∃ c, called = some (c, true) ∧ next c = some result := by
  rcases called with _ | ⟨c, _ | _⟩
  · simp [andThen]
  · simp only [andThen, Option.some.injEq, Prod.mk.injEq, Bool.false_eq_true, and_false, false_and,
      exists_false, or_false, iff_self_and]
    rintro rfl
    rfl
  · simp only [andThen, Option.some.injEq, Prod.mk.injEq, and_true, exists_eq_left', iff_or_self]
    rintro ⟨rfl, hfalse⟩
    contradiction

theorem collectEntry_some (hbelow : fs.stat (join root name) = some .directory →
      ∀ c, (below (join root name) c).isSome = true) :
    (collectEntry fs served includeHeaders below root name c).isSome = true := by
  unfold collectEntry
  split
  · rfl
  · split
    · split
      · next hkind => exact hbelow hkind _
      · split <;> rfl
      · rfl
    · rfl

theorem collectEntries_some (hbelow : ∀ name, fs.stat (join root name) = some .directory →
      ∀ c, (below (join root name) c).isSome = true) (names : List CString) :
    (collectEntries fs served includeHeaders below root names c).isSome = true := by
  induction names generalizing c with
  | nil => rfl
  | cons name rest ih =>
      have hsome : (collectEntry fs served includeHeaders below root name c).isSome = true :=
        collectEntry_some (hbelow name)
      obtain ⟨⟨c₁, ok⟩, hentry⟩ := Option.isSome_iff_exists.mp hsome
      rw [collectEntries, hentry]
      cases ok with
      | false => rfl
      | true => exact ih

/-- The recursion ends also where links lead back up: the paths get too long for `stat`. -/
theorem collectSources_some (hdepth : pathMax ≤ depth + root.length) :
    (collectSources fs served includeHeaders (depth + 1) root c).isSome = true := by
  induction depth generalizing root c with
  | zero =>
      rw [collectSources]
      split
      · rfl
      · refine collectEntries_some (fun name hkind => ?_) _
        have hlong := length_lt_of_stat hkind
        omega
  | succ depth ih =>
      rw [collectSources]
      split
      · rfl
      · refine collectEntries_some (fun name hkind c => ih ?_) _
        have hlong := length_lt_of_stat hkind
        omega

theorem collectEntry_mono
    (hdeeper : ∀ path c result, below path c = some result → deeper path c = some result)
    (h : collectEntry fs served includeHeaders below root name c = some result) :
    collectEntry fs served includeHeaders deeper root name c = some result := by
  unfold collectEntry at h ⊢
  split at h
  · next hdots => rwa [if_pos hdots]
  · next hdots =>
    rw [if_neg hdots]
    split at h
    · next hserved =>
      rw [if_pos hserved]
      split at h
      · exact hdeeper _ _ _ h
      · exact h
      · exact h
    · next hserved => rwa [if_neg hserved]

theorem collectEntries_mono
    (hdeeper : ∀ path c result, below path c = some result → deeper path c = some result)
    (names : List CString)
    (h : collectEntries fs served includeHeaders below root names c = some result) :
    collectEntries fs served includeHeaders deeper root names c = some result := by
  induction names generalizing c with
  | nil => exact h
  | cons name rest ih =>
      rw [collectEntries, andThen_eq_some] at h ⊢
      rcases h with ⟨hentry, hfalse⟩ | ⟨c₁, hentry, hrest⟩
      · exact .inl ⟨collectEntry_mono hdeeper hentry, hfalse⟩
      · exact .inr ⟨c₁, collectEntry_mono hdeeper hentry, ih hrest⟩

theorem collectSources_mono (h : collectSources fs served includeHeaders depth root c = some result)
    (extra : Nat) : collectSources fs served includeHeaders (depth + extra) root c = some result := by
  induction depth generalizing root c result with
  | zero => cases h
  | succ depth ih =>
      rw [Nat.succ_add]
      unfold collectSources at h ⊢
      split at h
      · exact h
      · exact collectEntries_mono (fun _ _ _ hbelow => ih hbelow) _ h

/-- Where the recursion has ended, it has found just the sources. -/
theorem collectSources_paths {found : Collection}
    (h : collectSources fs served includeHeaders depth root c = some (found, true)) :
    ∃ paths, found.paths = c.paths ++ paths ∧ paths.Nodup ∧
      ∀ path, path ∈ paths ↔ Source fs includeHeaders root path := by
  have hdeeper : collectSources fs served includeHeaders (depth + pathMax + 1) root c =
      some (found, true) := collectSources_mono h (pathMax + 1)
  refine ⟨sourcesBelow fs includeHeaders (depth + pathMax + 1) root,
    ((collectSources_outcome hdeeper).success rfl).1, nodup_sourcesBelow, fun path => ?_⟩
  exact ⟨source_of_mem, mem_of_source (by omega)⟩

end Recursion

/-- `collect_sources` from an empty array, in any file system, with links that go round in
circles too, and with any allocations failing: it returns, and it succeeds exactly when every
allocation is served and every directory on the way can be opened.  What it has found then are
just the sources below `root`, each once; and otherwise some of them. -/
theorem collected_sources (fs : FileSystem) (served : Nat → Bool) (includeHeaders : Bool)
    (root : CString) : ∃ c ok,
      (∀ depth, pathMax < depth →
        collectSources fs served includeHeaders depth root .empty = some (c, ok)) ∧
      (ok = true ↔ ¬ Closed fs root ∧ ∀ n < c.asked, served n = true) ∧
      c.paths.Nodup ∧ (∀ path ∈ c.paths, Source fs includeHeaders root path) ∧
      (ok = true → ∀ path, Source fs includeHeaders root path → path ∈ c.paths) := by
  have hsome : (collectSources fs served includeHeaders (pathMax + 1) root .empty).isSome = true :=
    collectSources_some (Nat.le_add_right pathMax root.length)
  obtain ⟨⟨c, ok⟩, hresult⟩ := Option.isSome_iff_exists.mp hsome
  have houtcome := collectSources_outcome hresult
  obtain ⟨front, hfront, hadded⟩ := houtcome.added
  have hpaths : c.paths = front := hadded
  refine ⟨c, ok, fun depth hdepth => ?_, ⟨fun hok => ?_, fun hall => ?_⟩, ?_, ?_, ?_⟩
  · obtain ⟨extra, rfl⟩ := Nat.exists_eq_add_of_lt hdepth
    rw [Nat.add_right_comm]
    exact collectSources_mono hresult extra
  · obtain ⟨_, hopen, hserved⟩ := houtcome.success hok
    exact ⟨hopen, fun n hn => hserved n (Nat.zero_le n) hn⟩
  · refine Bool.of_not_eq_false fun hfalse => ?_
    rcases houtcome.failure hfalse with hclosed | ⟨n, _, hlt, hn⟩
    · exact hall.1 hclosed
    · rw [hall.2 n hlt] at hn
      contradiction
  · rw [hpaths]
    exact hfront.sublist.nodup nodup_sourcesBelow
  · intro path hpath
    exact source_of_mem (hfront.subset (hpaths ▸ hpath))
  · intro hok path hsource
    rw [(houtcome.success hok).1]
    exact List.mem_append_right _ (mem_of_source (Nat.le_add_right _ _) hsource)

end Walk

end Driver

end AllocSitter
