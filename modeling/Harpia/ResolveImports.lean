import Harpia.PreLex
import Harpia.Lib.Topological
import Mathlib.Data.Finset.Card
import Mathlib.Data.Set.Finite.Basic

namespace Harpia

open Relation

/-- The files on disk, as the front end asks for them. -/
structure SourceDisk where
  cwd : String
  isfile : String → Bool
  pathExists : String → Bool
  realpath : String → String
  text : String → List Char

namespace SourceDisk

/-- `os.path.basename`. -/
def basename (path : String) : String :=
  String.ofList (path.toList.reverse.takeWhile (· ≠ '/')).reverse

/-- `os.path.dirname`: what stands before the last slash, without the slashes at its end. -/
def dirname (path : String) : String :=
  let head := path.toList.reverse.dropWhile (· ≠ '/')
  if head.all (· = '/') then String.ofList head
  else String.ofList (head.dropWhile (· = '/')).reverse

/-- `isFileInFolders`, on the folders still to be searched. -/
def searchFolders (d : SourceDisk) (file : String) : List String → Except Error String
  | [] => .error {
      errCl := .FILE_HAS_ERROR
      errTp := .IMPORT_INCOMPLETE_ERROR
      fileName := file
      fileLine := ""
      characterNumber := "0" }
  | folder :: folders =>
    if d.pathExists folder then
      let fullPath := folder ++ "/" ++ file
      if d.isfile fullPath then .ok fullPath else d.searchFolders file folders
    else .error {
      errCl := .FILE_HAS_ERROR
      errTp := .IMPORT_INCOMPLETE_ERROR
      fileName := file
      fileLine := ""
      characterNumber := "0" }

def isFileInFolders (d : SourceDisk) (folders : List String) (file : String) :
    Except Error String :=
  if d.isfile file then .ok file else d.searchFolders file folders

/-- `pre_lex` of a file: it looks in the working directory, beside the file, in the include folder. -/
def preLex (d : SourceDisk) (includeFolder : Option String) (file : String) : PreLex where
  file := file
  isFileInFolders := d.isFileInFolders
    (d.cwd :: (if d.pathExists file then [dirname file] else []) ++ includeFolder.toList)

/-- `process` of the file found, and `getListOfHarpias`. -/
def imports (d : SourceDisk) (includeFolder : Option String) (path : String) :
    Except Failure (List String) := do
  let prelex := d.preLex includeFolder path
  let file ← (prelex.isFileInFolders prelex.file).mapError .error
  prelex.process (d.text file)

/-- The names `order` and `done` of `resolve_imports`. -/
structure Resolving where
  order : List String := []
  done : Finset String := ∅

def importCycle (cycle : List String) : Failure :=
  .error {
    errCl := .FILE_HAS_ERROR
    errTp := .IMPORT_CYCLE
    fileName := " -> ".intercalate (cycle.map basename)
    fileLine := ""
    characterNumber := "0" }

/-- `visit`; without fuel it is still running. -/
def visit (d : SourceDisk) (includeFolder : Option String) :
    Nat → List String → Resolving → String → ExceptT Failure Option Resolving
  | 0, _, _, _ => ExceptT.mk none
  | fuel + 1, stack, s, path =>
    let real := d.realpath path
    if real ∈ s.done then pure s
    else if real ∈ stack then throw (importCycle (stack.drop (stack.idxOf real) ++ [real]))
    else do
      let children ← ExceptT.mk (some (d.imports includeFolder path))
      let s ← children.foldlM (d.visit includeFolder fuel (stack ++ [real])) s
      pure { order := s.order ++ [path], done := insert real s.done }

def resolveImports (d : SourceDisk) (includeFolder : Option String) (fuel : Nat)
    (rootImports : List String) : Option (Except Failure (List String)) :=
  (Resolving.order <$> rootImports.foldlM (d.visit includeFolder fuel []) {}).run

/-- The text of a path is accepted and imports the other path. -/
def Imports (d : SourceDisk) (includeFolder : Option String) (path child : String) : Prop :=
  ∃ children, d.imports includeFolder path = .ok children ∧ child ∈ children

/-- A path that the root's imports lead to. -/
def Reached (d : SourceDisk) (includeFolder : Option String) (roots : List String) (path : String) :
    Prop :=
  ∃ root ∈ roots, ReflTransGen (d.Imports includeFolder) root path

/-- The import graph, on resolved paths. -/
def FileImports (d : SourceDisk) (includeFolder : Option String) (roots : List String)
    (file imported : String) : Prop :=
  ∃ path child, d.Reached includeFolder roots path ∧ d.realpath path = file ∧
    d.Imports includeFolder path child ∧ d.realpath child = imported

/-- A finite graph of files that `process` accepts. -/
structure Accepted (d : SourceDisk) (includeFolder : Option String) (roots : List String) : Prop where
  accepted : ∀ path, d.Reached includeFolder roots path →
    ∃ children, d.imports includeFolder path = .ok children
  finite : {file | ∃ path, d.Reached includeFolder roots path ∧ d.realpath path = file}.Finite

def HasCycle (d : SourceDisk) (includeFolder : Option String) (roots : List String) : Prop :=
  ∃ path, d.Reached includeFolder roots path ∧
    TransGen (d.FileImports includeFolder roots) (d.realpath path) (d.realpath path)

def isImportCycle (result : Except Failure (List String)) : Prop :=
  ∃ err : Error, result = .error (.error err) ∧ err.errTp = .IMPORT_CYCLE

/-- What holds of the two names whenever `visit` is entered or left. -/
structure Resolving.Sound (d : SourceDisk) (includeFolder : Option String) (roots : List String)
    (s : Resolving) : Prop where
  known : ∀ path ∈ s.order, d.Reached includeFolder roots path
  nodup : (s.order.map d.realpath).Nodup
  done : ∀ file, file ∈ s.done ↔ file ∈ s.order.map d.realpath
  after : ∀ {before path rest child}, s.order = before ++ path :: rest →
    d.Imports includeFolder path child → d.realpath child ∈ before.map d.realpath

/-- The visits of some paths under a stack: all are done and the stack is not, or a cycle was found. -/
def Visited (d : SourceDisk) (includeFolder : Option String) (roots stack : List String)
    (s : Resolving) (paths : List String) (outcome : ExceptT Failure Option Resolving) : Prop :=
  (∃ s' : Resolving, outcome.run = some (.ok s') ∧ s'.Sound d includeFolder roots ∧ s.done ⊆ s'.done ∧
    (∀ path ∈ paths, d.realpath path ∈ s'.done) ∧ ∀ file ∈ stack, file ∈ s'.done → file ∈ s.done) ∨
  ∃ cycle, outcome.run = some (.error (importCycle cycle)) ∧ d.HasCycle includeFolder roots

variable {d : SourceDisk} {includeFolder : Option String} {roots : List String}

theorem Resolving.sound_start : Resolving.Sound d includeFolder roots {} where
  known _ h := by simp at h
  nodup := List.nodup_nil
  done := by simp
  after h := by simp at h

/-- A file whose imports are done is put last. -/
theorem Resolving.Sound.concat {s : Resolving} (h : s.Sound d includeFolder roots) {path : String}
    (known : d.Reached includeFolder roots path) (new : d.realpath path ∉ s.done)
    (imported : ∀ child, d.Imports includeFolder path child → d.realpath child ∈ s.done) :
    Resolving.Sound d includeFolder roots
      { order := s.order ++ [path], done := insert (d.realpath path) s.done } where
  known p hp := by
    rcases List.mem_append.mp hp with hp | hp
    · exact h.known p hp
    · cases List.mem_singleton.mp hp
      exact known
  nodup := by
    rw [h.done] at new
    rw [List.map_append]
    exact List.nodup_append.mpr ⟨h.nodup, List.nodup_singleton _,
      fun a ha b hb => by cases List.mem_singleton.mp hb; exact ne_of_mem_of_not_mem ha new⟩
  done file := by
    rw [Finset.mem_insert, h.done, List.map_append, List.mem_append, List.map_cons, List.map_nil,
      List.mem_singleton]
    exact or_comm
  after := by
    intro before p rest child parts hc
    rcases List.eq_nil_or_concat' rest with rfl | ⟨rest, last, rfl⟩
    · obtain ⟨rfl, one⟩ := List.append_inj' parts rfl
      cases one
      exact (h.done _).mp (imported child hc)
    · have parts' : s.order ++ [path] = (before ++ p :: rest) ++ [last] := by simpa using parts
      exact h.after (List.append_inj' parts' rfl).1 hc

/-- The loop over the children, from what one visit does. -/
theorem foldlM_visited {stack : List String} {visit : Resolving → String → ExceptT Failure Option Resolving}
    (paths : List String) (one : ∀ path ∈ paths, ∀ s : Resolving, s.Sound d includeFolder roots →
      (∀ file ∈ stack, file ∉ s.done) → Visited d includeFolder roots stack s [path] (visit s path))
    (s : Resolving) (sound : s.Sound d includeFolder roots) (apart : ∀ file ∈ stack, file ∉ s.done) :
    Visited d includeFolder roots stack s paths (paths.foldlM visit s) := by
  induction paths generalizing s with
  | nil => exact .inl ⟨s, rfl, sound, subset_rfl, by simp, fun _ _ h => h⟩
  | cons path paths ih =>
    rw [List.foldlM_cons]
    rcases one path List.mem_cons_self s sound apart with
      ⟨s₁, run₁, sound₁, more₁, done₁, kept₁⟩ | ⟨cycle, run₁, found⟩
    · have apart₁ : ∀ file ∈ stack, file ∉ s₁.done :=
        fun file hf done => apart file hf (kept₁ file hf done)
      have rest := ih (fun p hp => one p (List.mem_cons_of_mem _ hp)) s₁ sound₁ apart₁
      have run : (visit s path >>= fun s => paths.foldlM visit s).run =
          (paths.foldlM visit s₁).run := by
        rw [ExceptT.run_bind, run₁]
        rfl
      rcases rest with ⟨s₂, run₂, sound₂, more₂, done₂, kept₂⟩ | ⟨cycle, run₂, found⟩
      · refine .inl ⟨s₂, run.trans run₂, sound₂, more₁.trans more₂, ?_,
          fun file hf done => kept₁ file hf (kept₂ file hf done)⟩
        intro p hp
        rcases List.mem_cons.mp hp with rfl | hp
        · exact more₂ (done₁ p List.mem_cons_self)
        · exact done₂ p hp
      · exact .inr ⟨cycle, run.trans run₂, found⟩
    · refine .inr ⟨cycle, ?_, found⟩
      rw [ExceptT.run_bind, run₁]
      rfl

theorem Reached.child {path child : String} (h : d.Reached includeFolder roots path)
    (hc : d.Imports includeFolder path child) : d.Reached includeFolder roots child :=
  let ⟨root, hr, way⟩ := h
  ⟨root, hr, way.tail hc⟩

theorem foldlM_more {f g : Resolving → String → ExceptT Failure Option Resolving}
    (more : ∀ s path result, (f s path).run = some result → (g s path).run = some result)
    {paths : List String} {s : Resolving} {result : Except Failure Resolving}
    (h : (paths.foldlM f s).run = some result) : (paths.foldlM g s).run = some result := by
  induction paths generalizing s with
  | nil => exact h
  | cons path paths ih =>
    rw [List.foldlM_cons, ExceptT.run_bind] at h ⊢
    obtain ⟨first, hfirst, rest⟩ := Option.bind_eq_some_iff.mp h
    rw [more s path first hfirst]
    cases first with
    | ok s' => exact ih rest
    | error err => exact rest

/-- A file met for the first time: its imports are visited under it. -/
theorem visit_fresh {fuel : Nat} {stack children : List String} {s : Resolving} {path : String}
    (done : d.realpath path ∉ s.done) (found : d.realpath path ∉ stack)
    (hchildren : d.imports includeFolder path = .ok children) :
    d.visit includeFolder (fuel + 1) stack s path =
      children.foldlM (d.visit includeFolder fuel (stack ++ [d.realpath path])) s >>= fun s =>
        pure { order := s.order ++ [path], done := insert (d.realpath path) s.done } := by
  rw [visit, if_neg done, if_neg found, hchildren]
  rfl

/-- One visit: the fuel lasts as long as the stack can still grow. -/
theorem visit_visited (ok : d.Accepted includeFolder roots) {files : Finset String}
    (all : ∀ path, d.Reached includeFolder roots path → d.realpath path ∈ files) (fuel : Nat)
    {stack : List String} {path : String} (known : d.Reached includeFolder roots path)
    (chain : (stack ++ [d.realpath path]).IsChain (d.FileImports includeFolder roots))
    (unique : stack.Nodup) (inside : ∀ file ∈ stack, file ∈ files)
    (enough : files.card < fuel + stack.length) (s : Resolving)
    (sound : s.Sound d includeFolder roots) (apart : ∀ file ∈ stack, file ∉ s.done) :
    Visited d includeFolder roots stack s [path] (d.visit includeFolder fuel stack s path) := by
  induction fuel generalizing stack path s with
  | zero =>
    have small : stack.toFinset.card ≤ files.card :=
      Finset.card_le_card fun file hf => inside file (List.mem_toFinset.mp hf)
    rw [List.toFinset_card_of_nodup unique] at small
    omega
  | succ fuel ih =>
    by_cases done : d.realpath path ∈ s.done
    · rw [visit, if_pos done]
      exact .inl ⟨s, rfl, sound, subset_rfl, by simpa using done, fun _ _ h => h⟩
    by_cases found : d.realpath path ∈ stack
    · rw [visit, if_neg done, if_pos found]
      exact .inr ⟨_, rfl, path, known, cycle_of_isChain chain found⟩
    · obtain ⟨children, hchildren⟩ := ok.accepted path known
      have imports : ∀ child, d.Imports includeFolder path child ↔ child ∈ children := by
        intro child
        constructor
        · rintro ⟨children', h, hc⟩
          cases Except.ok.inj (hchildren.symm.trans h)
          exact hc
        · exact fun hc => ⟨children, hchildren, hc⟩
      have apart' : ∀ file ∈ stack ++ [d.realpath path], file ∉ s.done := by
        intro file hf
        rcases List.mem_append.mp hf with hf | hf
        · exact apart file hf
        · cases List.mem_singleton.mp hf
          exact done
      have step : ∀ child ∈ children, ∀ s : Resolving, s.Sound d includeFolder roots →
          (∀ file ∈ stack ++ [d.realpath path], file ∉ s.done) →
          Visited d includeFolder roots (stack ++ [d.realpath path]) s [child]
            (d.visit includeFolder fuel (stack ++ [d.realpath path]) s child) := by
        intro child hc s sound apart
        have imported := (imports child).mpr hc
        refine ih (known.child imported) ?_ ?_ ?_ ?_ s sound apart
        · refine List.isChain_append.mpr ⟨chain, List.isChain_singleton _, ?_⟩
          intro x hx y hy
          simp at hx hy
          subst hx hy
          exact ⟨path, child, known, rfl, imported, rfl⟩
        · exact List.nodup_append.mpr ⟨unique, List.nodup_singleton _,
            fun a ha b hb => by cases List.mem_singleton.mp hb; exact ne_of_mem_of_not_mem ha found⟩
        · intro file hf
          rcases List.mem_append.mp hf with hf | hf
          · exact inside file hf
          · cases List.mem_singleton.mp hf
            exact all path known
        · rw [List.length_append, List.length_singleton]
          omega
      have loop := foldlM_visited children step s sound apart'
      rw [visit_fresh done found hchildren]
      rcases loop with ⟨s₁, run, sound₁, more, done₁, kept⟩ | ⟨cycle, run, cyclic⟩
      · have new : d.realpath path ∉ s₁.done := fun h => done (kept _ (by simp) h)
        refine .inl ⟨_, ?_, sound₁.concat known new fun child hc => done₁ child ((imports child).mp hc),
          more.trans (Finset.subset_insert _ _), by simp, ?_⟩
        · rw [ExceptT.run_bind, run]
          rfl
        · intro file hf h
          rcases Finset.mem_insert.mp h with rfl | h
          · exact absurd hf found
          · exact kept file (List.mem_append_left _ hf) h
      · refine .inr ⟨cycle, ?_, cyclic⟩
        rw [ExceptT.run_bind, run]
        rfl

/-- More fuel changes no visit that ends. -/
theorem visit_more {fuel : Nat} {stack : List String} {s : Resolving} {path : String}
    {result : Except Failure Resolving}
    (h : (d.visit includeFolder fuel stack s path).run = some result) :
    (d.visit includeFolder (fuel + 1) stack s path).run = some result := by
  induction fuel generalizing stack path s result with
  | zero => cases h
  | succ fuel ih =>
    by_cases done : d.realpath path ∈ s.done
    · rw [visit, if_pos done] at h ⊢
      exact h
    by_cases found : d.realpath path ∈ stack
    · rw [visit, if_neg done, if_pos found] at h ⊢
      exact h
    cases hchildren : d.imports includeFolder path with
    | error err =>
      rw [visit, if_neg done, if_neg found, hchildren] at h ⊢
      exact h
    | ok children =>
      rw [visit_fresh done found hchildren, ExceptT.run_bind] at h ⊢
      obtain ⟨loop, hloop, rest⟩ := Option.bind_eq_some_iff.mp h
      have same := foldlM_more (fun _ _ _ => ih) hloop
      rw [same]
      exact rest

theorem resolveImports_more {fuel : Nat} {result : Except Failure (List String)}
    (h : d.resolveImports includeFolder fuel roots = some result) :
    ∀ more ≥ fuel, d.resolveImports includeFolder more roots = some result := by
  intro more hm
  induction hm with
  | refl => exact h
  | step _ ih =>
    rw [resolveImports, ExceptT.run_map] at ih ⊢
    obtain ⟨last, run, he⟩ := Option.map_eq_some_iff.mp ih
    rw [foldlM_more (fun _ _ _ => visit_more) run]
    exact congrArg some he

/-- The order returned, as the paths listed import: each file once, after all it imports. -/
structure OrderedByPath (d : SourceDisk) (includeFolder : Option String) (roots order : List String) :
    Prop where
  reached : ∀ path ∈ order, d.Reached includeFolder roots path
  roots : ∀ root ∈ roots, d.realpath root ∈ order.map d.realpath
  nodup : (order.map d.realpath).Nodup
  after : ∀ {before path rest child}, order = before ++ path :: rest →
    d.Imports includeFolder path child → d.realpath child ∈ before.map d.realpath

/-- The order returned, as the files import: those reached and no others, each after all it imports. -/
structure Ordered (d : SourceDisk) (includeFolder : Option String) (roots order : List String) :
    Prop where
  reached : ∀ file, file ∈ order.map d.realpath ↔
    ∃ path, d.Reached includeFolder roots path ∧ d.realpath path = file
  sorted : Topological (d.FileImports includeFolder roots) (order.map d.realpath)

/-- `resolve_imports` ends with this result. -/
def Ends (d : SourceDisk) (includeFolder : Option String) (roots : List String)
    (result : Except Failure (List String)) : Prop :=
  ∃ bound, ∀ fuel ≥ bound, d.resolveImports includeFolder fuel roots = some result

/-- The law of `resolve_imports`: it ends with the error of a cycle or with the files in order. -/
def Resolves (d : SourceDisk) (includeFolder : Option String) (roots : List String) : Prop :=
  ∃ result, d.Ends includeFolder roots result ∧
    (isImportCycle result ↔ d.HasCycle includeFolder roots) ∧
    (¬ d.HasCycle includeFolder roots →
      ∃ order, result = .ok order ∧ d.Ordered includeFolder roots order)

/-- What is left of the law where a file may import other files under another of its paths. -/
def ResolvesByPath (d : SourceDisk) (includeFolder : Option String) (roots : List String) : Prop :=
  ∃ result, d.Ends includeFolder roots result ∧
    (isImportCycle result → d.HasCycle includeFolder roots) ∧
    (¬ isImportCycle result →
      ∃ order, result = .ok order ∧ d.OrderedByPath includeFolder roots order)

/-- Every path a file is reached by imports the same files. -/
def AliasesAgree (d : SourceDisk) (includeFolder : Option String) (roots : List String) : Prop :=
  ∀ path other child, d.Reached includeFolder roots path → d.Reached includeFolder roots other →
    d.realpath path = d.realpath other → d.Imports includeFolder path child →
    ∃ twin, d.Imports includeFolder other twin ∧ d.realpath twin = d.realpath child

namespace OrderedByPath

variable {order : List String}

/-- Where the paths of a file agree, the order is one of the files. -/
theorem topological (h : d.OrderedByPath includeFolder roots order)
    (agree : d.AliasesAgree includeFolder roots) :
    Topological (d.FileImports includeFolder roots) (order.map d.realpath) := by
  refine ⟨h.nodup, ?_⟩
  intro before file rest imported parts hi
  obtain ⟨before, tail, whole, rfl, hrest⟩ := List.map_eq_append_iff.mp parts
  obtain ⟨path, rest, rfl, rfl, rfl⟩ := List.map_eq_cons_iff.mp hrest
  obtain ⟨other, child, reached, same, hc, rfl⟩ := hi
  have known := h.reached path (by simp [whole])
  obtain ⟨twin, ht, he⟩ := agree other path child reached known same hc
  rw [← he]
  exact h.after whole ht

theorem holds (h : d.OrderedByPath includeFolder roots order)
    (agree : d.AliasesAgree includeFolder roots) {path : String}
    (reached : d.Reached includeFolder roots path) :
    d.realpath path ∈ order.map d.realpath := by
  obtain ⟨root, hr, way⟩ := reached
  induction way with
  | refl => exact h.roots root hr
  | tail way step ih =>
    exact (h.topological agree).closed ih ⟨_, _, ⟨root, hr, way⟩, rfl, step, rfl⟩

theorem ordered (h : d.OrderedByPath includeFolder roots order)
    (agree : d.AliasesAgree includeFolder roots) : d.Ordered includeFolder roots order := by
  refine ⟨fun file => ⟨fun hf => ?_, ?_⟩, h.topological agree⟩
  · obtain ⟨path, hp, rfl⟩ := List.mem_map.mp hf
    exact ⟨path, h.reached path hp, rfl⟩
  · rintro ⟨path, reached, rfl⟩
    exact h.holds agree reached

theorem acyclic (h : d.OrderedByPath includeFolder roots order)
    (agree : d.AliasesAgree includeFolder roots) : ¬ d.HasCycle includeFolder roots := by
  rintro ⟨path, reached, cycle⟩
  exact (h.topological agree).acyclic (h.holds agree reached) cycle

end OrderedByPath

example : (importCycle ["/include/a.harpia", "/include/b.harpia", "/include/a.harpia"]) = .error {
    errCl := .FILE_HAS_ERROR
    errTp := .IMPORT_CYCLE
    fileName := "a.harpia -> b.harpia -> a.harpia"
    fileLine := ""
    characterNumber := "0" } := by decide +kernel

/-- The whole run: it ends in the error of a cycle that is there, or in an order. -/
theorem resolve_imports_ends (ok : d.Accepted includeFolder roots) :
    d.ResolvesByPath includeFolder roots := by
  classical
  set files := ok.finite.toFinset
  have all : ∀ path, d.Reached includeFolder roots path → d.realpath path ∈ files :=
    fun path h => ok.finite.mem_toFinset.mpr ⟨path, h, rfl⟩
  have step : ∀ root ∈ roots, ∀ s : Resolving, s.Sound d includeFolder roots →
      (∀ file ∈ ([] : List String), file ∉ s.done) →
      Visited d includeFolder roots [] s [root] (d.visit includeFolder (files.card + 1) [] s root) := by
    intro root hr s sound apart
    refine visit_visited ok all _ ⟨root, hr, .refl⟩ (List.isChain_singleton _) List.nodup_nil
      (by simp) ?_ s sound apart
    simp
  rcases foldlM_visited roots step {} Resolving.sound_start (by simp) with
    ⟨s, run, sound, _, done, _⟩ | ⟨cycle, run, cyclic⟩
  · refine ⟨.ok s.order, ⟨files.card + 1, fun fuel hf => ?_⟩, ?_, fun _ => ⟨s.order, rfl, sound.known,
      fun root hr => (sound.done _).mp (done root hr), sound.nodup, sound.after⟩⟩
    · refine resolveImports_more ?_ fuel hf
      rw [resolveImports, ExceptT.run_map, run]
      rfl
    · rintro ⟨err, h, _⟩
      cases h
  · refine ⟨.error (importCycle cycle), ⟨files.card + 1, fun fuel hf => ?_⟩, fun _ => cyclic,
      fun h => absurd ⟨_, rfl, rfl⟩ h⟩
    refine resolveImports_more ?_ fuel hf
    rw [resolveImports, ExceptT.run_map, run]
    rfl

/-- Files whose paths agree are put in order, and a cycle among them is found. -/
theorem resolve_imports_sorts (ok : d.Accepted includeFolder roots) :
    d.ResolvesByPath includeFolder roots ∧
      (d.AliasesAgree includeFolder roots → d.Resolves includeFolder roots) := by
  have byPath := resolve_imports_ends ok
  refine ⟨byPath, fun agree => ?_⟩
  obtain ⟨result, ends, cyclic, order⟩ := byPath
  refine ⟨result, ends, ⟨cyclic, fun cycle => ?_⟩, fun none => ?_⟩
  · by_contra other
    obtain ⟨order, _, sorted⟩ := order other
    exact sorted.acyclic agree cycle
  · obtain ⟨order, he, sorted⟩ := order (mt cyclic none)
    exact ⟨order, he, sorted.ordered agree⟩

/-- A disk with these files, and these links to some of them. -/
def ofFiles (files links : List (String × String)) : SourceDisk where
  cwd := "/harpia"
  isfile path := files.any (·.1 = path) || links.any (·.1 = path)
  pathExists path := path = "/harpia" || (files ++ links).any fun file =>
    file.1 = path || (path ++ "/").toList.isPrefixOf file.1.toList
  realpath path := (links.lookup path).getD path
  text path := ((files.lookup ((links.lookup path).getD path)).getD "").toList

/-- Paths that hold the root's imports and all that they import themselves. -/
def ClosedUnder (d : SourceDisk) (includeFolder : Option String) (roots paths : List String) : Prop :=
  (∀ root ∈ roots, root ∈ paths) ∧ ∀ path ∈ paths, ∃ children,
    d.imports includeFolder path = .ok children ∧ ∀ child ∈ children, child ∈ paths

theorem ClosedUnder.holds {paths : List String} (h : d.ClosedUnder includeFolder roots paths)
    {path : String} (reached : d.Reached includeFolder roots path) : path ∈ paths := by
  obtain ⟨root, hr, way⟩ := reached
  induction way with
  | refl => exact h.1 root hr
  | tail _ step ih =>
    obtain ⟨children, hc, inside⟩ := h.2 _ ih
    obtain ⟨children', hc', mem⟩ := step
    cases Except.ok.inj (hc.symm.trans hc')
    exact inside _ mem

theorem ClosedUnder.accepted {paths : List String} (h : d.ClosedUnder includeFolder roots paths) :
    d.Accepted includeFolder roots where
  accepted path reached := by
    obtain ⟨children, hc, _⟩ := h.2 path (h.holds reached)
    exact ⟨children, hc⟩
  finite := by
    refine (List.finite_toSet (paths.map d.realpath)).subset ?_
    rintro file ⟨path, reached, rfl⟩
    exact List.mem_map_of_mem (h.holds reached)

/-- Two modules that import a third. -/
def diamond : SourceDisk := ofFiles
  [("/include/a.harpia", "import \"b.harpia\";\n"), ("/include/b.harpia", "message beta\n"),
    ("/include/c.harpia", "import \"b.harpia\";\n")] []

theorem diamond_closed : diamond.ClosedUnder (some "/include")
    ["/include/a.harpia", "/include/c.harpia"]
    ["/include/a.harpia", "/include/b.harpia", "/include/c.harpia"] := by
  refine ⟨by decide, ?_⟩
  intro path hp
  simp only [List.mem_cons, List.not_mem_nil, or_false] at hp
  rcases hp with rfl | rfl | rfl
  · exact ⟨["/include/b.harpia"], by decide +kernel, by decide⟩
  · exact ⟨[], by decide +kernel, by decide⟩
  · exact ⟨["/include/b.harpia"], by decide +kernel, by decide⟩

theorem resolve_imports_sorts_diamond :
    diamond.ResolvesByPath (some "/include") ["/include/a.harpia", "/include/c.harpia"] ∧
      diamond.Resolves (some "/include") ["/include/a.harpia", "/include/c.harpia"] := by
  obtain ⟨byPath, resolves⟩ := resolve_imports_sorts diamond_closed.accepted
  have agree : diamond.AliasesAgree (some "/include") ["/include/a.harpia", "/include/c.harpia"] :=
    fun path other child _ _ same hc => by
      have same : path = other := same
      exact ⟨child, same ▸ hc, rfl⟩
  exact ⟨byPath, resolves agree⟩

/-- One module in two folders, each with its own file of the name the module imports. -/
def twoFolders : SourceDisk := ofFiles
  [("/s/a/x.harpia", "import \"y.harpia\";\n"), ("/s/a/y.harpia", "message alpha\n"),
    ("/s/b/y.harpia", "message beta\n")] [("/s/b/x.harpia", "/s/a/x.harpia")]

theorem twoFolders_closed : twoFolders.ClosedUnder none ["/s/a/x.harpia", "/s/b/x.harpia"]
    ["/s/a/x.harpia", "/s/b/x.harpia", "/s/a/y.harpia", "/s/b/y.harpia"] := by
  refine ⟨by decide, ?_⟩
  intro path hp
  simp only [List.mem_cons, List.not_mem_nil, or_false] at hp
  rcases hp with rfl | rfl | rfl | rfl
  · exact ⟨["/s/a/y.harpia"], by decide +kernel, by decide⟩
  · exact ⟨["/s/b/y.harpia"], by decide +kernel, by decide⟩
  · exact ⟨[], by decide +kernel, by decide⟩
  · exact ⟨[], by decide +kernel, by decide⟩

/-- The second folder's file is left out: the module is done when it is met there. -/
theorem not_resolve_imports_sorts :
    ¬ ∀ (d : SourceDisk) (includeFolder : Option String) (roots : List String),
      d.Accepted includeFolder roots → d.Resolves includeFolder roots := by
  intro all
  obtain ⟨result, ⟨bound, ends⟩, cyclic, order⟩ :=
    all twoFolders none ["/s/a/x.harpia", "/s/b/x.harpia"] twoFolders_closed.accepted
  have run : twoFolders.resolveImports none 3 ["/s/a/x.harpia", "/s/b/x.harpia"] =
      some (.ok ["/s/a/y.harpia", "/s/a/x.harpia"]) := by decide +kernel
  have same := resolveImports_more run (max bound 3) (le_max_right _ _)
  rw [ends _ (le_max_left _ _)] at same
  cases Option.some.inj same
  have straight : ¬ twoFolders.HasCycle none ["/s/a/x.harpia", "/s/b/x.harpia"] := by
    intro cycle
    obtain ⟨err, h, _⟩ := cyclic.mpr cycle
    cases h
  obtain ⟨_, he, ordered⟩ := order straight
  cases Except.ok.inj he
  have second : twoFolders.Reached none ["/s/a/x.harpia", "/s/b/x.harpia"] "/s/b/y.harpia" :=
    ⟨"/s/b/x.harpia", by decide, .single ⟨["/s/b/y.harpia"], by decide +kernel, by decide⟩⟩
  have listed := (ordered.reached "/s/b/y.harpia").mpr ⟨_, second, by decide +kernel⟩
  revert listed
  decide +kernel

end SourceDisk

end Harpia
