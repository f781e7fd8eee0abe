/-
`main` of `bench/driver.c`, from the arguments to the counts that it prints: the options, the
collected and loaded files, and the rounds of `parse_once`.  The times and the statistics of
the allocator are left to other modules.
-/
import AllocSitter.NodeCount
import AllocSitter.SourceFiles
import Mathlib.Algebra.BigOperators.Group.List.Basic
import Mathlib.Algebra.GroupWithZero.Nat

namespace AllocSitter

namespace Driver

open CStrings TreeCursor

universe u v

inductive AllocatorMode where
  | default
  | mmapArena
deriving DecidableEq

structure Options where
  allocator : AllocatorMode := .default
  root : CString := ascii ['b', 'e', 'n', 'c', 'h', '/', 'r', 'e', 'd', 'i', 's', '-', 's', 'r', 'c']
  iters : Int := 5
  warmup : Int := 1
  includeHeaders : Bool := false
  csv : Bool := false
  tracePath : Option CString := none
  explicitFiles : Bool := false

section Arguments

def allocatorFlag : CString := ascii ['-', '-', 'a', 'l', 'l', 'o', 'c', 'a', 't', 'o', 'r', '=']
def rootFlag : CString := ascii ['-', '-', 'r', 'o', 'o', 't', '=']
def itersFlag : CString := ascii ['-', '-', 'i', 't', 'e', 'r', 's', '=']
def warmupFlag : CString := ascii ['-', '-', 'w', 'a', 'r', 'm', 'u', 'p', '=']
def headersFlag : CString :=
  ascii ['-', '-', 'i', 'n', 'c', 'l', 'u', 'd', 'e', '-', 'h', 'e', 'a', 'd', 'e', 'r', 's']
def csvFlag : CString := ascii ['-', '-', 'c', 's', 'v']
def traceFlag : CString := ascii ['-', '-', 't', 'r', 'a', 'c', 'e', '=']
def helpFlag : CString := ascii ['-', '-', 'h', 'e', 'l', 'p']
def defaultName : CString := ascii ['d', 'e', 'f', 'a', 'u', 'l', 't']
def mmapArenaName : CString := ascii ['m', 'm', 'a', 'p', '-', 'a', 'r', 'e', 'n', 'a']

/-- An argument that starts with a dash; `.error` is the status that `main` returns at once,
and `none` is left for the files. -/
def readOption (o : Options) (arg : CString) : Option (Except Nat Options) :=
  if strncmp arg allocatorFlag 12 = 0 then
    let name := arg.drop 12
    if strcmp name defaultName = 0 then some (.ok { o with allocator := .default })
    else if strcmp name mmapArenaName = 0 then some (.ok { o with allocator := .mmapArena })
    else some (.error 2)
  else if strncmp arg rootFlag 7 = 0 then some (.ok { o with root := arg.drop 7 })
  else if strncmp arg itersFlag 8 = 0 then some (.ok { o with iters := atoi (arg.drop 8) })
  else if strncmp arg warmupFlag 9 = 0 then some (.ok { o with warmup := atoi (arg.drop 9) })
  else if strcmp arg headersFlag = 0 then some (.ok { o with includeHeaders := true })
  else if strcmp arg csvFlag = 0 then some (.ok { o with csv := true })
  else if strncmp arg traceFlag 8 = 0 then some (.ok { o with tracePath := some (arg.drop 8) })
  else if strcmp arg helpFlag = 0 then some (.error 0)
  else if arg.head? = some dash then some (.error 2)
  else none

def readArg (served : Nat → Bool) (state : Options × Collection) (arg : CString) :
    Except Nat (Options × Collection) :=
  match readOption state.1 arg with
  | some (.error status) => .error status
  | some (.ok o) => .ok (o, state.2)
  | none =>
      match vecPushPath served state.2 arg with
      | (c, true) => .ok ({ state.1 with explicitFiles := true }, c)
      | (_, false) => .error 1

def readArgs (served : Nat → Bool) (state : Options × Collection) :
    List CString → Except Nat (Options × Collection)
  | [] => .ok state
  | arg :: rest =>
      match readArg served state arg with
      | .error status => .error status
      | .ok state => readArgs served state rest

end Arguments

structure ParseStats where
  files : Nat
  bytes : Nat
  nodes : Nat
  errors : Nat
deriving DecidableEq

/-- The parser library.  A text has one tree, whatever was parsed before, and the cursor moves
over it as a zipper does. -/
structure ParserLibrary (α : Type u) (γ : Type v) extends TreeSitter α γ where
  tree : List UInt8 → RoseTree α
  loc : γ → Loc α
  isZipper : moves.IsZipper loc
  atRoot : ∀ t, loc (cursorNew t) = ⟨t, []⟩

/-- What the driver finds when it runs. -/
structure Machine (α : Type u) (γ : Type v) where
  fs : FileSystem
  /-- Whether an allocation of the driver itself is served. -/
  served : Nat → Bool
  library : ParserLibrary α γ
  /-- `ts_parser_new` in a round. -/
  parserNew : Nat → Bool
  setLanguage : Nat → Bool
  /-- Whether `ts_parser_parse_string` returns a tree, in a round and for the file `i`. -/
  parses : Nat → Nat → Bool
  /-- `fopen(trace_path, "w")`. -/
  opensTrace : CString → Bool

section Stages

variable {α : Type u} {γ : Type v} (m : Machine α γ)

/-- `read_file` for each file, with the number of allocations so far; `none` for `-1`. -/
def loadSources : List SourceFile → Nat → Option (List SourceFile × Nat)
  | [], asked => some ([], asked)
  | src :: rest, asked =>
      match m.fs.contents src.path with
      | none => none
      | some text =>
          if m.served asked then
            (loadSources rest (asked + 1)).map fun (loaded, asked) =>
              (⟨src.path, some text⟩ :: loaded, asked)
          else none

/-- What the parser is given of a file: the length is cast to `uint32_t`. -/
def parsedText (data : List UInt8) : List UInt8 := data.take (data.length % 2 ^ 32)

/-- The loop of `parse_once`; `none` while a walk has not ended, and `false` for `-1`. -/
def parseFiles (fuel round : Nat) :
    Nat → List SourceFile → ParseStats → Option (ParseStats × Bool)
  | _, [], stats => some (stats, true)
  | i, src :: rest, stats =>
      let data := src.data.getD []
      if m.parses round i then
        match countNodesAndErrors m.library.toTreeSitter fuel (m.library.tree (parsedText data)) with
        | none => none
        | some (nodes, hasError) =>
            parseFiles fuel round (i + 1) rest
              { files := stats.files + 1
                bytes := stats.bytes + data.length
                nodes := stats.nodes + nodes
                errors := stats.errors + hasError.toNat }
      else some (stats, false)

def parseOnce (fuel round : Nat) (sources : List SourceFile) : Option (ParseStats × Bool) :=
  if m.parserNew round && m.setLanguage round then parseFiles m fuel round 0 sources ⟨0, 0, 0, 0⟩
  else some (⟨0, 0, 0, 0⟩, false)

/-- `count` rounds from `round` on; the statistics of the last one stay. -/
def parseRounds (fuel : Nat) (sources : List SourceFile) :
    Nat → Nat → ParseStats → Option (ParseStats × Bool)
  | _, 0, last => some (last, true)
  | round, count + 1, _ =>
      match parseOnce m fuel round sources with
      | some (last, true) => parseRounds fuel sources (round + 1) count last
      | stopped => stopped

/-- `return 1` after a call that has failed; `none` while it has not ended. -/
def orFail {β : Type} (result : Option (β × Bool)) : ExceptT Nat Option β :=
  .mk (result.map fun (value, ok) => if ok then .ok value else .error 1)

/-- `return status` where the condition holds. -/
def bail (condition : Prop) [Decidable condition] (status : Nat) : ExceptT Nat Option Unit :=
  if condition then throw status else pure ()

/-- The printed line: the options and the statistics of the last round. -/
structure Report where
  options : Options
  last : ParseStats

/-- The directory is only searched if no file is named. -/
def findSources (fuel : Nat) (o : Options) (c : Collection) : Option (Collection × Bool) :=
  if o.explicitFiles then some (c, true)
  else collectSources m.fs m.served o.includeHeaders fuel o.root c

/-- `none` while the recursion or a walk has not ended, `.error` for a `return` before the
report is printed. -/
def main (fuel : Nat) (args : List CString) : ExceptT Nat Option Report := do
  let (o, c) ← ExceptT.mk (some (readArgs m.served ({}, .empty) args))
  bail (o.iters ≤ 0 ∨ o.warmup < 0) 2
  let c ← orFail (findSources m fuel o c)
  let sources := sortBy SourceFile.path c.vec.items
  bail (sources = []) 1
  let (sources, asked) ← .mk (some ((loadSources m sources c.asked).elim (.error 1) .ok))
  bail (o.tracePath.isSome = true ∧ o.allocator ≠ .mmapArena) 2
  let last ← orFail (parseRounds m fuel sources 0 o.warmup.toNat ⟨0, 0, 0, 0⟩)
  bail (o.tracePath.any fun path => !m.opensTrace path) 1
  -- `times` and `sorted`
  bail (m.served asked = false ∨ m.served (asked + 1) = false) 1
  let last ← orFail (parseRounds m fuel sources o.warmup.toNat o.iters.toNat last)
  return ⟨o, last⟩

end Stages

section Returning

variable {β δ : Type}

theorem bind_eq_ok {x : ExceptT Nat Option β} {f : β → ExceptT Nat Option δ} {r : δ} :
    (x >>= f).run = some (.ok r) ↔ ∃ a, x.run = some (.ok a) ∧ (f a).run = some (.ok r) := by
  rw [ExceptT.run_bind]
  rcases hx : x.run with _ | _ | a
  · simp
  · simp
  · simp

theorem mk_eq_ok {result : Except Nat β} {value : β} :
    (ExceptT.mk (some result)).run = some (.ok value) ↔ result = .ok value := by
  simp [ExceptT.mk, ExceptT.run]

theorem orFail_eq_ok {result : Option (β × Bool)} {value : β} :
    (orFail result).run = some (.ok value) ↔ result = some (value, true) := by
  rcases result with _ | ⟨value', _ | _⟩
  · simp [orFail, ExceptT.mk, ExceptT.run]
  · simp [orFail, ExceptT.mk, ExceptT.run]
  · simp [orFail, ExceptT.mk, ExceptT.run]

theorem bail_eq_ok {condition : Prop} [Decidable condition] {status : Nat} {u : Unit} :
    (bail condition status).run = some (.ok u) ↔ ¬ condition := by
  by_cases h : condition
  · simp [bail, h, throw, throwThe, MonadExceptOf.throw, ExceptT.mk, ExceptT.run]
  · simp [bail, h, pure, ExceptT.pure, ExceptT.mk, ExceptT.run]

/-- With enough fuel the result is there, and stays. -/
def Settles (f : Nat → Option β) : Prop := ∃ result, ∃ enough, ∀ n, enough ≤ n → f n = some result

theorem settles_const {result : β} : Settles fun _ => some result := ⟨result, 0, fun _ _ => rfl⟩

theorem settles_bind {f : Nat → ExceptT Nat Option β} {g : Nat → β → ExceptT Nat Option δ}
    (h : Settles fun n => (f n).run) (h' : ∀ a, Settles fun n => (g n a).run) :
    Settles fun n => (f n >>= g n).run := by
  obtain ⟨result, enough, hf⟩ := h
  cases result with
  | error status =>
      refine ⟨.error status, enough, fun n hn => ?_⟩
      simp only [ExceptT.run_bind, hf n hn]
      rfl
  | ok a =>
      obtain ⟨result, enough', hg⟩ := h' a
      refine ⟨result, max enough enough', fun n hn => ?_⟩
      simp only [ExceptT.run_bind, hf n (by omega)]
      exact hg n (by omega)

theorem settles_orFail {f : Nat → Option (β × Bool)} (h : Settles f) :
    Settles fun n => (orFail (f n)).run := by
  obtain ⟨⟨value, ok⟩, enough, hf⟩ := h
  refine ⟨if ok then .ok value else .error 1, enough, fun n hn => ?_⟩
  simp [orFail, hf n hn, ExceptT.mk, ExceptT.run]

theorem settles_bail {condition : Prop} [Decidable condition] {status : Nat} :
    Settles fun _ => (bail condition status).run := by
  by_cases h : condition
  · exact ⟨.error status, 0, fun _ _ => by simp [bail, h]⟩
  · exact ⟨.ok (), 0, fun _ _ => by simp [bail, h]⟩

end Returning

section Options

variable {served : Nat → Bool} {state state' : Options × Collection} {arg : CString}

/-- The arguments that name files: those that do not start with a dash. -/
def fileArgs (args : List CString) : List CString := args.filter fun arg => arg.head? ≠ some dash

theorem strncmp_ne_zero {s flag : CString} {n : Nat} (hn : n = flag.length)
    (hflag : flag.head? = some dash) (hs : s.head? ≠ some dash) : strncmp s flag n ≠ 0 := by
  rw [hn, Ne, strncmp_eq_zero_iff]
  intro hfront
  obtain ⟨rest, rfl⟩ := List.head?_eq_some_iff.mp hflag
  obtain ⟨back, rfl⟩ := hfront
  exact hs rfl

theorem strcmp_ne_zero {s flag : CString} (hflag : flag.head? = some dash)
    (hs : s.head? ≠ some dash) : strcmp s flag ≠ 0 := by
  rw [Ne, strcmp_eq_zero_iff]
  rintro rfl
  exact hs hflag

theorem readOption_eq_none_iff {o : Options} :
    readOption o arg = none ↔ arg.head? ≠ some dash := by
  constructor
  · intro h harg
    unfold readOption at h
    rw [if_pos harg] at h
    split at h
    · dsimp only at h
      split at h
      · cases h
      · split at h <;> cases h
    · repeat' split at h
      all_goals cases h
  · intro harg
    unfold readOption
    have hvalue (flag : CString) (n : Nat) (hn : n = flag.length)
        (hflag : flag.head? = some dash) : strncmp arg flag n ≠ 0 := strncmp_ne_zero hn hflag harg
    have hswitch (flag : CString) (hflag : flag.head? = some dash) : strcmp arg flag ≠ 0 :=
      strcmp_ne_zero hflag harg
    rw [if_neg (hvalue allocatorFlag 12 rfl rfl), if_neg (hvalue rootFlag 7 rfl rfl),
      if_neg (hvalue itersFlag 8 rfl rfl), if_neg (hvalue warmupFlag 9 rfl rfl),
      if_neg (hswitch headersFlag rfl), if_neg (hswitch csvFlag rfl),
      if_neg (hvalue traceFlag 8 rfl rfl), if_neg (hswitch helpFlag rfl), if_neg harg]

theorem readOption_explicit {o o' : Options} (h : readOption o arg = some (.ok o')) :
    o'.explicitFiles = o.explicitFiles := by
  unfold readOption at h
  dsimp only at h
  repeat' split at h
  all_goals first | (cases h; rfl) | cases h

/-- An argument that names a file. -/
theorem readArg_file (h : readArg served state arg = .ok state') (harg : arg.head? ≠ some dash) :
    vecPushPath served state.2 arg = (state'.2, true) ∧
      state'.1 = { state.1 with explicitFiles := true } := by
  unfold readArg at h
  rw [readOption_eq_none_iff.mpr harg] at h
  dsimp only at h
  split at h
  · next c hpush =>
    cases h
    exact ⟨hpush, rfl⟩
  · cases h

/-- Any other argument leaves the array as it is. -/
theorem readArg_option (h : readArg served state arg = .ok state')
    (harg : arg.head? = some dash) :
    state'.2 = state.2 ∧ state'.1.explicitFiles = state.1.explicitFiles := by
  unfold readArg at h
  split at h
  · cases h
  · next o hoption =>
    cases h
    exact ⟨rfl, readOption_explicit hoption⟩
  · next hnone => exact absurd harg (readOption_eq_none_iff.mp hnone)

/-- What the arguments make of the array. -/
theorem readArgs_files (args : List CString) (h : readArgs served state args = .ok state') :
    state'.2.paths = state.2.paths ++ fileArgs args ∧
      (state'.1.explicitFiles = true ↔ state.1.explicitFiles = true ∨ fileArgs args ≠ []) := by
  induction args generalizing state with
  | nil =>
      cases h
      simp [fileArgs]
  | cons arg rest ih =>
      unfold readArgs at h
      split at h
      · cases h
      · next next hnext =>
        obtain ⟨hpaths, hexplicit⟩ := ih h
        by_cases harg : arg.head? = some dash
        · obtain ⟨hsame, hflag⟩ := readArg_option hnext harg
          have hargs : fileArgs (arg :: rest) = fileArgs rest := by simp [fileArgs, harg]
          rw [hargs]
          exact ⟨hsame ▸ hpaths, hflag ▸ hexplicit⟩
        · obtain ⟨hpush, hoptions⟩ := readArg_file hnext harg
          have houtcome : Outcome served [arg] False state.2 _ := vecPushPath_outcome arg
          have hargs : fileArgs (arg :: rest) = arg :: fileArgs rest := by simp [fileArgs, harg]
          rw [hpush] at houtcome
          rw [hargs]
          constructor
          · rw [hpaths, (houtcome.success rfl).1, List.append_assoc]
            rfl
          · simp [hexplicit, hoptions]

end Options

section Counting

variable {α : Type u} {γ : Type v} (m : Machine α γ)

/-- The file as it is after `read_file`. -/
def Machine.loaded (path : CString) : SourceFile := ⟨path, m.fs.contents path⟩

def Machine.text (path : CString) : List UInt8 := (m.fs.contents path).getD []

def Machine.treeOf (path : CString) : RoseTree α := m.library.tree (parsedText (m.text path))

/-- The counts over files that were read. -/
def Machine.counts (paths : List CString) : ParseStats where
  files := paths.length
  bytes := (paths.map fun path => (m.text path).length).sum
  nodes := (paths.map fun path => visits (m.treeOf path)).sum
  errors := paths.countP fun path => m.library.nodeHasError (m.treeOf path)

variable {m} {stats last : ParseStats} {fuel round : Nat}

theorem loadSources_eq {sources loaded : List SourceFile} {asked asked' : Nat}
    (h : loadSources m sources asked = some (loaded, asked')) :
    loaded = (sources.map SourceFile.path).map m.loaded ∧
      ∀ src ∈ sources, (m.fs.contents src.path).isSome = true := by
  induction sources generalizing loaded asked asked' with
  | nil =>
      cases h
      exact ⟨rfl, nofun⟩
  | cons src rest ih =>
      unfold loadSources at h
      split at h
      · cases h
      · next text htext =>
        split at h
        · obtain ⟨⟨more, _⟩, hmore, heq⟩ := Option.map_eq_some_iff.mp h
          obtain ⟨hloaded, hread⟩ := ih hmore
          cases heq
          refine ⟨?_, List.forall_mem_cons.mpr ⟨by rw [htext]; rfl, hread⟩⟩
          rw [hloaded, List.map_cons, List.map_cons, Machine.loaded, htext]
        · cases h

/-- The walk over a tree that the library has parsed. -/
theorem countNodesAndErrors_library (t : RoseTree α) (hfuel : visits t ≤ fuel) :
    countNodesAndErrors m.library.toTreeSitter fuel t =
      some (visits t, m.library.nodeHasError t) := by
  obtain ⟨extra, rfl⟩ := Nat.exists_eq_add_of_le hfuel
  have hroot := countNodes_mono (countNodes_root t) extra
  rw [countNodesAndErrors, countNodes_zipper m.library.isZipper, m.library.atRoot, hroot,
    Option.map_some]

theorem countNodesAndErrors_eq {t : RoseTree α} {result : Nat × Bool}
    (h : countNodesAndErrors m.library.toTreeSitter fuel t = some result) :
    result = (visits t, m.library.nodeHasError t) :=
  countNodesAndErrors_unique h (countNodesAndErrors_library t (Nat.le_refl _))

theorem parseFiles_eq {i : Nat} (paths : List CString)
    (h : parseFiles m fuel round i (paths.map m.loaded) stats = some (last, true)) :
    last = ⟨stats.files + (m.counts paths).files, stats.bytes + (m.counts paths).bytes,
      stats.nodes + (m.counts paths).nodes, stats.errors + (m.counts paths).errors⟩ := by
  induction paths generalizing i stats with
  | nil =>
      cases h
      rfl
  | cons path rest ih =>
      rw [List.map_cons, parseFiles] at h
      split at h
      · split at h
        · cases h
        · next nodes hasError hcount =>
          obtain ⟨rfl, rfl⟩ := Prod.mk.inj (countNodesAndErrors_eq hcount)
          have htext : (m.loaded path).data.getD [] = m.text path := rfl
          have htree : m.library.tree (parsedText (m.text path)) = m.treeOf path := rfl
          have herror : (m.library.nodeHasError (m.treeOf path)).toNat =
              if m.library.nodeHasError (m.treeOf path) = true then 1 else 0 := by
            cases m.library.nodeHasError (m.treeOf path) <;> rfl
          rw [ih h]
          simp only [Machine.counts, List.length_cons, List.map_cons, List.sum_cons,
            List.countP_cons, ParseStats.mk.injEq, htext, htree, ← herror]
          exact ⟨by omega, by omega, by omega, by omega⟩
      · cases h

theorem parseOnce_eq {paths : List CString}
    (h : parseOnce m fuel round (paths.map m.loaded) = some (last, true)) :
    last = m.counts paths := by
  unfold parseOnce at h
  split at h
  · rw [parseFiles_eq paths h]
    simp only [Nat.zero_add]
  · cases h

/-- After at least one round, the statistics are those of the files. -/
theorem parseRounds_eq {paths : List CString} (count : Nat) (hcount : 0 < count)
    (h : parseRounds m fuel (paths.map m.loaded) round count stats = some (last, true)) :
    last = m.counts paths := by
  induction count generalizing round stats with
  | zero => omega
  | succ count ih =>
      unfold parseRounds at h
      split at h
      · next first hfirst =>
        cases count with
        | zero =>
            cases h
            exact parseOnce_eq hfirst
        | succ count => exact ih (Nat.succ_pos count) h
      · next hstopped => exact absurd h (hstopped last)

theorem parseFiles_settles {i : Nat} (files : List SourceFile) (stats : ParseStats) :
    Settles fun fuel => parseFiles m fuel round i files stats := by
  induction files generalizing i stats with
  | nil => exact settles_const
  | cons src rest ih =>
      by_cases hparses : m.parses round i = true
      · obtain ⟨result, enough, hrest⟩ := ih (i := i + 1) _
        refine ⟨result, max enough (visits (m.library.tree (parsedText (src.data.getD [])))),
          fun n hn => ?_⟩
        dsimp only
        rw [parseFiles, if_pos hparses, countNodesAndErrors_library _ (by omega)]
        exact hrest n (by omega)
      · refine ⟨(stats, false), 0, fun n _ => ?_⟩
        dsimp only
        rw [parseFiles, if_neg hparses]

theorem parseRounds_settles (files : List SourceFile) (count : Nat) (stats : ParseStats) :
    Settles fun fuel => parseRounds m fuel files round count stats := by
  induction count generalizing round stats with
  | zero => exact settles_const
  | succ count ih =>
      have honce : Settles fun fuel => parseOnce m fuel round files := by
        unfold parseOnce
        split
        · exact parseFiles_settles files _
        · exact settles_const
      obtain ⟨⟨last, ok⟩, enough, hfirst⟩ := honce
      dsimp only at hfirst
      cases ok with
      | false =>
          refine ⟨(last, false), enough, fun n hn => ?_⟩
          dsimp only
          rw [parseRounds, hfirst n hn]
      | true =>
          obtain ⟨result, enough', hrest⟩ :
              Settles fun fuel => parseRounds m fuel files (round + 1) count last := ih last
          refine ⟨result, max enough enough', fun n hn => ?_⟩
          dsimp only
          rw [parseRounds, hfirst n (by omega)]
          exact hrest n (by omega)

end Counting

section Report

variable {α : Type u} {γ : Type v} {m : Machine α γ} {fuel : Nat} {args : List CString} {r : Report}

theorem collectSources_settles {fs : FileSystem} {served : Nat → Bool} {includeHeaders : Bool}
    {root : CString} {c : Collection} :
    Settles fun fuel => collectSources fs served includeHeaders fuel root c := by
  have hsome : (collectSources fs served includeHeaders (pathMax + 1) root c).isSome = true :=
    collectSources_some (Nat.le_add_right pathMax root.length)
  obtain ⟨result, hresult⟩ := Option.isSome_iff_exists.mp hsome
  refine ⟨result, pathMax + 1, fun n hn => ?_⟩
  obtain ⟨extra, rfl⟩ := Nat.exists_eq_add_of_le hn
  exact collectSources_mono hresult extra

/-- `main` returns. -/
theorem main_settles (m : Machine α γ) (args : List CString) :
    Settles fun fuel => (main m fuel args).run := by
  unfold main
  refine settles_bind settles_const ?_
  rintro ⟨o, c⟩
  refine settles_bind settles_bail fun _ => settles_bind (settles_orFail ?_) fun c => ?_
  · unfold findSources
    split
    · exact settles_const
    · exact collectSources_settles
  refine settles_bind settles_bail fun _ => settles_bind settles_const ?_
  rintro ⟨sources, asked⟩
  refine settles_bind settles_bail fun _ => ?_
  refine settles_bind (settles_orFail (parseRounds_settles _ _ _)) fun last => ?_
  refine settles_bind settles_bail fun _ => settles_bind settles_bail fun _ => ?_
  exact settles_bind (settles_orFail (parseRounds_settles _ _ _)) fun last => settles_const

/-- What `main` has done when it prints its report. -/
theorem main_eq_ok (h : (main m fuel args).run = some (.ok r)) : ∃ c found loaded asked,
    readArgs m.served ({}, .empty) args = .ok (r.options, c) ∧
    0 < r.options.iters ∧ 0 ≤ r.options.warmup ∧
    (r.options.tracePath.isSome = true → r.options.allocator = .mmapArena) ∧
    findSources m fuel r.options c = some (found, true) ∧
    sortBy SourceFile.path found.vec.items ≠ [] ∧
    loadSources m (sortBy SourceFile.path found.vec.items) found.asked = some (loaded, asked) ∧
    ∃ first round, parseRounds m fuel loaded round r.options.iters.toNat first =
      some (r.last, true) := by
  unfold main at h
  obtain ⟨⟨o, c⟩, hargs, h⟩ := bind_eq_ok.mp h
  obtain ⟨_, hvalid, h⟩ := bind_eq_ok.mp h
  obtain ⟨found, hfound, h⟩ := bind_eq_ok.mp h
  obtain ⟨_, hsome, h⟩ := bind_eq_ok.mp h
  obtain ⟨⟨loaded, asked⟩, hloaded, h⟩ := bind_eq_ok.mp h
  obtain ⟨_, htrace, h⟩ := bind_eq_ok.mp h
  obtain ⟨first, _, h⟩ := bind_eq_ok.mp h
  obtain ⟨_, _, h⟩ := bind_eq_ok.mp h
  obtain ⟨_, _, h⟩ := bind_eq_ok.mp h
  obtain ⟨last, hlast, h⟩ := bind_eq_ok.mp h
  cases h
  obtain ⟨hiters, hwarmup⟩ := not_or.mp (bail_eq_ok.mp hvalid)
  refine ⟨c, found, loaded, asked, mk_eq_ok.mp hargs, not_le.mp hiters, not_lt.mp hwarmup, ?_,
    orFail_eq_ok.mp hfound, bail_eq_ok.mp hsome, ?_, first, _, orFail_eq_ok.mp hlast⟩
  · intro hpath
    by_contra hmode
    exact bail_eq_ok.mp htrace ⟨hpath, hmode⟩
  · have helim := mk_eq_ok.mp hloaded
    cases hload : loadSources m (sortBy SourceFile.path found.vec.items) found.asked with
    | none => simp [hload] at helim
    | some result => simpa [hload] using helim

/-- The files of a report, in the order in which they are parsed: those that are named, or else
the sources below the root. -/
structure Chosen (fs : FileSystem) (o : Options) (args paths : List CString) : Prop where
  named : fileArgs args ≠ [] → paths.Perm (fileArgs args)
  found : fileArgs args = [] →
    paths.Nodup ∧ ∀ path, path ∈ paths ↔ Source fs o.includeHeaders o.root path
  sorted : paths.Pairwise fun s t => strcmp s t ≤ 0

theorem chosen_of_found {c found : Collection}
    (hargs : readArgs m.served ({}, .empty) args = .ok (r.options, c))
    (hfound : findSources m fuel r.options c = some (found, true)) :
    Chosen m.fs r.options args ((sortBy SourceFile.path found.vec.items).map SourceFile.path) := by
  obtain ⟨hargs', hexplicit⟩ := readArgs_files args hargs
  have hpaths : c.paths = fileArgs args := hargs'
  have hnamed : r.options.explicitFiles = true ↔ fileArgs args ≠ [] := by
    rw [hexplicit]
    simp
  have hperm : ((sortBy SourceFile.path found.vec.items).map SourceFile.path).Perm found.paths :=
    sortBy_perm.map SourceFile.path
  unfold findSources at hfound
  refine ⟨fun hfiles => ?_, fun hnone => ?_, List.pairwise_map.mpr sortBy_pairwise⟩
  · rw [if_pos (hnamed.mpr hfiles)] at hfound
    cases hfound
    exact hpaths ▸ hperm
  · rw [if_neg (fun hexplicit => hnamed.mp hexplicit hnone)] at hfound
    obtain ⟨paths, heq, hnodup, hsources⟩ := collectSources_paths hfound
    have hfresh : found.paths = paths := by
      rw [heq, hpaths, hnone]
      rfl
    rw [hfresh] at hperm
    exact ⟨hperm.nodup_iff.mpr hnodup, fun path => hperm.mem_iff.trans (hsources path)⟩

/-- The report, where there is one, is about the chosen files. -/
theorem report_eq (h : (main m fuel args).run = some (.ok r)) : ∃ paths,
    paths ≠ [] ∧ Chosen m.fs r.options args paths ∧
      (∀ path ∈ paths, (m.fs.contents path).isSome = true) ∧ r.last = m.counts paths := by
  obtain ⟨c, found, loaded, asked, hargs, hiters, _, _, hfound, hsome, hload, first, round, hlast⟩ :=
    main_eq_ok h
  obtain ⟨rfl, hread⟩ := loadSources_eq hload
  refine ⟨_, ?_, chosen_of_found hargs hfound, ?_, parseRounds_eq _ (by omega) hlast⟩
  · exact fun hnil => hsome (List.map_eq_nil_iff.mp hnil)
  · intro path hpath
    obtain ⟨src, hsrc, rfl⟩ := List.mem_map.mp hpath
    exact hread src hsrc

/-- `main` on any machine and with any arguments: it returns, and if it prints a report, then
the options are in order and the counts are those of the named files, or else of the sources
below the root, whatever the number of rounds. -/
theorem printed_counts (m : Machine α γ) (args : List CString) :
    (∃ result enough, ∀ fuel, enough ≤ fuel → (main m fuel args).run = some result) ∧
    ∀ fuel r, (main m fuel args).run = some (.ok r) →
      0 < r.options.iters ∧ 0 ≤ r.options.warmup ∧
      (r.options.tracePath.isSome = true → r.options.allocator = .mmapArena) ∧
      ∃ paths, paths ≠ [] ∧ Chosen m.fs r.options args paths ∧
        (∀ path ∈ paths, (m.fs.contents path).isSome = true) ∧ r.last = m.counts paths := by
  refine ⟨main_settles m args, fun fuel r h => ?_⟩
  obtain ⟨_, _, _, _, _, hiters, hwarmup, htrace, _⟩ := main_eq_ok h
  exact ⟨hiters, hwarmup, htrace, report_eq h⟩

end Report

section SameWork

/-- The same files, with the entries of the directories in any order. -/
structure SameFiles (fs fs' : FileSystem) : Prop where
  names : ∀ dir, Option.Rel List.Perm (fs.opendir dir) (fs'.opendir dir)
  stat : fs.stat = fs'.stat
  contents : fs.contents = fs'.contents

variable {fs fs' : FileSystem} {includeHeaders : Bool} {root dir name path : CString}

theorem SameFiles.entry (h : SameFiles fs fs') : Entry fs dir name ↔ Entry fs' dir name := by
  unfold Entry
  have hnames := h.names dir
  generalize fs.opendir dir = left at hnames ⊢
  generalize fs'.opendir dir = right at hnames ⊢
  cases hnames with
  | some hperm => simp [hperm.mem_iff]
  | none => simp

theorem SameFiles.visits (h : SameFiles fs fs') : Visits fs root dir ↔ Visits fs' root dir := by
  constructor
  · intro hvisits
    induction hvisits with
    | root => exact .root
    | inside _ hentry hkind ih => exact .inside ih (h.entry.mp hentry) (h.stat ▸ hkind)
  · intro hvisits
    induction hvisits with
    | root => exact .root
    | inside _ hentry hkind ih => exact .inside ih (h.entry.mpr hentry) (h.stat ▸ hkind)

theorem SameFiles.source (h : SameFiles fs fs') :
    Source fs includeHeaders root path ↔ Source fs' includeHeaders root path := by
  simp only [Source, h.visits, h.entry, h.stat]

/-- The files and their order do not depend on the order of the entries or of the arguments. -/
theorem Chosen.unique (h : SameFiles fs fs') {o o' : Options} {args args' paths paths' : List CString}
    (hfiles : (fileArgs args).Perm (fileArgs args'))
    (hroot : fileArgs args = [] → o.root = o'.root ∧ o.includeHeaders = o'.includeHeaders)
    (hchosen : Chosen fs o args paths) (hchosen' : Chosen fs' o' args' paths') :
    paths = paths' := by
  have hperm : paths.Perm paths' := by
    by_cases hnone : fileArgs args = []
    · have hnone' : fileArgs args' = [] := by
        rw [hnone] at hfiles
        exact hfiles.nil_eq.symm
      obtain ⟨hnodup, hmem⟩ := hchosen.found hnone
      obtain ⟨hnodup', hmem'⟩ := hchosen'.found hnone'
      obtain ⟨hsame, hheaders⟩ := hroot hnone
      refine (List.perm_ext_iff_of_nodup hnodup hnodup').mpr fun path => ?_
      rw [hmem, hmem', h.source, hsame, hheaders]
    · have hsome' : fileArgs args' ≠ [] := fun hnil => hnone (by
        rw [hnil] at hfiles
        exact hfiles.eq_nil)
      exact ((hchosen.named hnone).trans hfiles).trans (hchosen'.named hsome').symm
  have hkey : ∀ s ∈ paths', ∀ t ∈ paths', id s = id t → s = t := fun _ _ _ _ heq => heq
  exact (eq_sortBy hkey hperm hchosen.sorted).trans (eq_sortBy hkey (.refl _) hchosen'.sorted).symm

theorem Machine.counts_congr {α : Type u} {γ γ' : Type v} {m : Machine α γ} {m' : Machine α γ'}
    (hfs : SameFiles m.fs m'.fs) (htree : m.library.tree = m'.library.tree)
    (herror : m.library.nodeHasError = m'.library.nodeHasError) (paths : List CString) :
    m.counts paths = m'.counts paths := by
  unfold counts treeOf text
  rw [hfs.contents, htree, herror]

/-- Two runs over the same files, with libraries that have the same trees and errors for them:
directories that are listed in another order, files that are named in another order, other
options, other numbers of rounds, other allocations served.  If both print a report, then the
same files were parsed in the same order, and the counts are equal. -/
theorem same_workload {α : Type u} {γ γ' : Type v} {m : Machine α γ} {m' : Machine α γ'}
    {fuel fuel' : Nat} {args args' : List CString} {r r' : Report}
    (hfs : SameFiles m.fs m'.fs) (htree : m.library.tree = m'.library.tree)
    (herror : m.library.nodeHasError = m'.library.nodeHasError)
    (hfiles : (fileArgs args).Perm (fileArgs args'))
    (hroot : fileArgs args = [] →
      r.options.root = r'.options.root ∧ r.options.includeHeaders = r'.options.includeHeaders)
    (h : (main m fuel args).run = some (.ok r))
    (h' : (main m' fuel' args').run = some (.ok r')) :
    ∃ paths, Chosen m.fs r.options args paths ∧ Chosen m'.fs r'.options args' paths ∧
      r.last = m.counts paths ∧ r.last = r'.last := by
  obtain ⟨paths, _, hchosen, _, hlast⟩ := report_eq h
  obtain ⟨paths', _, hchosen', _, hlast'⟩ := report_eq h'
  obtain rfl := hchosen.unique hfs hfiles hroot hchosen'
  refine ⟨paths, hchosen, hchosen', hlast, ?_⟩
  rw [hlast, hlast', Machine.counts_congr hfs htree herror]

end SameWork

section Example

def exampleRoot : CString := ascii ['d']
def exampleSource : CString := ascii ['a', '.', 'c']
def exampleHeader : CString := ascii ['b', '.', 'h']

/-- A directory with a source, a header and itself, listed in either order. -/
def exampleFiles (backwards : Bool) : FileSystem where
  opendir dir :=
    if dir = exampleRoot then
      some (if backwards then [exampleHeader, ascii ['.'], exampleSource]
        else [exampleSource, exampleHeader, ascii ['.']])
    else none
  stat path :=
    if path = join exampleRoot exampleSource ∨ path = join exampleRoot exampleHeader then
      some .regular
    else none
  contents path :=
    if path = join exampleRoot exampleSource then some [105, 110, 116]
    else if path = join exampleRoot exampleHeader then some [59]
    else none
  names_nodup {dir names} h := by
    split at h
    · cases h
      cases backwards <;> decide
    · cases h
  name_plain {dir names} h := by
    split at h
    · cases h
      cases backwards <;> decide
    · cases h
  stat_long path hlong := by
    refine if_neg fun h => ?_
    rcases h with rfl | rfl
    · exact absurd hlong (by decide)
    · exact absurd hlong (by decide)

/-- Each byte is a child of the root. -/
def exampleLibrary : ParserLibrary Unit (Loc Unit) where
  toTreeSitter := zipperSitter
  tree text := .node () (text.map fun _ => .node () [])
  loc := id
  isZipper := zipper_isZipper
  atRoot _ := rfl

def exampleMachine (backwards : Bool) : Machine Unit (Loc Unit) where
  fs := exampleFiles backwards
  served _ := true
  library := exampleLibrary
  parserNew _ := true
  setLanguage _ := true
  parses _ _ := true
  opensTrace _ := true

/-- Three rounds over the two files, of which the last one is reported. -/
theorem printed_counts_example :
    ∃ r, (main (exampleMachine false) 20
        [rootFlag ++ exampleRoot, headersFlag, itersFlag ++ ascii ['2']]).run = some (.ok r) ∧
      r.last = ⟨2, 4, 8, 0⟩ ∧
      ∃ paths, paths ≠ [] ∧ Chosen (exampleFiles false) r.options
          [rootFlag ++ exampleRoot, headersFlag, itersFlag ++ ascii ['2']] paths ∧
        r.last = (exampleMachine false).counts paths := by
  have hrun : ∃ r, (main (exampleMachine false) 20
      [rootFlag ++ exampleRoot, headersFlag, itersFlag ++ ascii ['2']]).run = some (.ok r) ∧
      r.last = ⟨2, 4, 8, 0⟩ := ⟨_, rfl, rfl⟩
  obtain ⟨r, hrun, hlast⟩ := hrun
  obtain ⟨_, _, _, paths, hsome, hchosen, _, hcounts⟩ := (printed_counts _ _).2 20 r hrun
  exact ⟨r, hrun, hlast, paths, hsome, hchosen, hcounts⟩

/-- The other order of the entries, with the other allocator and without a warmup. -/
theorem same_workload_example :
    ∃ r r', (main (exampleMachine false) 20 [rootFlag ++ exampleRoot, headersFlag]).run =
        some (.ok r) ∧
      (main (exampleMachine true) 20 [allocatorFlag ++ mmapArenaName, headersFlag,
        warmupFlag ++ ascii ['0'], rootFlag ++ exampleRoot]).run = some (.ok r') ∧
      r.last = r'.last := by
  have hsame : SameFiles (exampleMachine false).fs (exampleMachine true).fs := by
    refine ⟨fun dir => ?_, rfl, rfl⟩
    by_cases hdir : dir = exampleRoot
    · simp only [exampleMachine, exampleFiles, hdir, if_true]
      exact .some (by decide)
    · simp only [exampleMachine, exampleFiles, hdir, if_false]
      exact .none
  have htree : (exampleMachine false).library.tree = (exampleMachine true).library.tree := rfl
  have hrun : ∃ r, (main (exampleMachine false) 20 [rootFlag ++ exampleRoot, headersFlag]).run =
      some (.ok r) ∧ r.options.root = exampleRoot ∧ r.options.includeHeaders = true :=
    ⟨_, rfl, rfl, rfl⟩
  have hrun' : ∃ r, (main (exampleMachine true) 20 [allocatorFlag ++ mmapArenaName, headersFlag,
      warmupFlag ++ ascii ['0'], rootFlag ++ exampleRoot]).run =
      some (.ok r) ∧ r.options.root = exampleRoot ∧ r.options.includeHeaders = true :=
    ⟨_, rfl, rfl, rfl⟩
  obtain ⟨r, hrun, hroot, hheaders⟩ := hrun
  obtain ⟨r', hrun', hroot', hheaders'⟩ := hrun'
  obtain ⟨_, _, _, _, hlast⟩ := same_workload hsame htree rfl (by decide)
    (fun _ => ⟨hroot.trans hroot'.symm, hheaders.trans hheaders'.symm⟩) hrun hrun'
  exact ⟨r, r', hrun, hrun', hlast⟩

end Example

end Driver

end AllocSitter
