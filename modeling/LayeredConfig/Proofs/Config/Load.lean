import LayeredConfig.Config.Builder
import Mathlib.Data.List.Forall2

/-!
# What inputs are loaded as

`Supplies disk input sources` says which sources an input stands for, without reference to the way
they are loaded: a document is the one parsed from its text, a pattern stands for the documents in
the files that match it, in the order of their paths, and an optional file may be missing.

* `Input.supplies_of_load`: what loading an input gives are such sources.
* `mapM_eq_ok_iff`: loading several inputs succeeds exactly if loading each of them does.
* `FilePath.pairwise_mergeSort`: the files of a pattern are sorted, as `lessEq` is a total order on
  the components of their paths.
-/

namespace LayeredConfig

/-! ### The order of paths -/

namespace FilePath

namespace Component

variable {a b c : Component}

/-- The kinds decide, and among names the texts. -/
theorem lt_iff : a.lt b ↔
    a.rank < b.rank ∨ ∃ left right, a = name left ∧ b = name right ∧ left < right := by
  cases a <;> cases b <;> simp [lt, rank]

theorem lt_irrefl (a : Component) : ¬ a.lt a := by
  rw [lt_iff]
  rintro (h | ⟨left, right, rfl, heq, h⟩)
  · exact Nat.lt_irrefl _ h
  · rw [name.injEq] at heq
    exact String.lt_irrefl right (heq ▸ h)

theorem lt_trans (h : a.lt b) (h' : b.lt c) : a.lt c := by
  rw [lt_iff] at h h' ⊢
  rcases h with h | ⟨left, middle, rfl, rfl, h⟩
  · rcases h' with h' | ⟨_, right, rfl, rfl, -⟩
    · exact .inl (Nat.lt_trans h h')
    · exact .inl h
  · rcases h' with h' | ⟨_, right, heq, rfl, h'⟩
    · exact .inl h'
    · obtain rfl := name.inj heq
      exact .inr ⟨left, right, rfl, rfl, String.lt_trans h h'⟩

/-- Any two components are comparable. -/
theorem lt_or_gt_of_ne (h : a ≠ b) : a.lt b ∨ b.lt a := by
  rw [lt_iff, lt_iff]
  rcases Nat.lt_trichotomy a.rank b.rank with hlt | heq | hgt
  · exact .inl (.inl hlt)
  · -- two components of one kind that differ are names
    obtain ⟨left, right, rfl, rfl⟩ : ∃ left right, a = name left ∧ b = name right := by
      cases a <;> cases b <;> simp_all [rank]
    by_contra hnot
    simp only [rank, Nat.lt_irrefl, false_or, name.injEq, exists_and_left, exists_eq_left',
      not_or, String.not_lt] at hnot
    exact h (congrArg name (String.le_antisymm hnot.2 hnot.1))
  · exact .inr (.inl hgt)

end Component

/-- The first components that differ decide. -/
theorem componentsLessEq_total (left right : List Component) :
    componentsLessEq left right || componentsLessEq right left := by
  induction left generalizing right with
  | nil => rfl
  | cons a lefts ih =>
    cases right with
    | nil => rfl
    | cons b rights =>
      rw [componentsLessEq, componentsLessEq]
      by_cases heq : a = b
      · rw [if_pos heq, if_pos heq.symm]
        exact ih rights
      · rw [if_neg heq, if_neg (Ne.symm heq), Bool.or_eq_true]
        exact Component.lt_or_gt_of_ne heq

theorem componentsLessEq_trans {left middle right : List Component}
    (h : componentsLessEq left middle) (h' : componentsLessEq middle right) :
    componentsLessEq left right := by
  induction left generalizing middle right with
  | nil => rfl
  | cons a lefts ih =>
    cases middle with
    | nil => exact absurd h (by simp [componentsLessEq])
    | cons b middles =>
      cases right with
      | nil => exact absurd h' (by simp [componentsLessEq])
      | cons c rights =>
        rw [componentsLessEq] at h h' ⊢
        -- the lists go on together up to the first place where one of them differs
        by_cases hab : a = b
        · subst hab
          rw [if_pos rfl] at h
          by_cases hac : a = c
          · rw [if_pos hac] at h' ⊢
            exact ih h h'
          · rwa [if_neg hac] at h' ⊢
        · rw [if_neg hab] at h
          by_cases hbc : b = c
          · subst hbc
            rwa [if_neg hab]
          · rw [if_neg hbc] at h'
            have hlt := Component.lt_trans h h'
            rwa [if_neg fun hac : a = c => Component.lt_irrefl a (hac ▸ hlt)]

/-- Sorting puts paths in their order. -/
theorem pairwise_mergeSort (paths : List String) :
    (paths.mergeSort lessEq).Pairwise fun left right => lessEq left right :=
  @List.pairwise_mergeSort String lessEq (fun _ _ _ => componentsLessEq_trans)
    (fun _ _ => componentsLessEq_total _ _) paths

end FilePath

/-! ### Loading several inputs -/

/-- Computations one after the other succeed exactly if each of them does. -/
theorem mapM_eq_ok_iff {ε α β : Type} {f : α → Except ε β} {inputs : List α}
    {outputs : List β} : inputs.mapM f = .ok outputs ↔
      List.Forall₂ (fun input output => f input = .ok output) inputs outputs := by
  induction inputs generalizing outputs with
  | nil =>
    rw [List.mapM_nil, List.forall₂_nil_left_iff]
    exact ⟨fun h => (Except.ok.inj h).symm, fun h => congrArg Except.ok h.symm⟩
  | cons input rest ih =>
    rw [List.mapM_cons, List.forall₂_cons_left_iff]
    cases hinput : f input with
    | error error =>
      constructor
      · intro h
        exact absurd h (by simp [bind, Except.bind])
      · rintro ⟨output, _, h, -⟩
        exact absurd h (by simp)
    | ok output =>
      cases hrest : rest.mapM f with
      | error error =>
        constructor
        · intro h
          exact absurd h (by simp [bind, Except.bind])
        · rintro ⟨_, others, -, h, -⟩
          exact absurd (hrest.symm.trans (ih.2 h)) (by simp)
      | ok others =>
        constructor
        · intro h
          obtain rfl := Except.ok.inj h
          exact ⟨output, others, rfl, ih.1 hrest, rfl⟩
        · rintro ⟨_, others', hhead, htail, rfl⟩
          obtain rfl := Except.ok.inj hhead
          obtain rfl := Except.ok.inj (hrest.symm.trans (ih.2 htail))
          rfl

/-! ### The sources of an input -/

namespace DocumentSource

/-- The document is the one in the file at a path, and has the path as its name. -/
def LiesAt (disk : Disk) (path : String) (document : DocumentSource) : Prop :=
  ∃ text, disk.readText path = .ok text ∧ parse path text = .ok document

theorem load_eq_ok_iff {disk : Disk} {path : String} {document : DocumentSource} :
    load disk path = .ok document ↔ LiesAt disk path document := by
  rw [load, LiesAt]
  cases hread : disk.readText path with
  | ok text => simp
  | error fault => cases fault <;> simp

end DocumentSource

/-- The files that match a pattern are all of those files, in the order of paths. -/
theorem Glob.exists_expand_of_matchingFiles {disk : Disk} {pattern : String}
    {paths : List String} (h : matchingFiles disk pattern = .ok paths) :
    ∃ found, expand disk pattern = .ok found ∧ paths.Perm (found.filter disk.isFile) ∧
      paths.Pairwise fun left right => FilePath.lessEq left right := by
  rw [matchingFiles] at h
  cases hfound : expand disk pattern with
  | error fault => exact absurd (hfound ▸ h) (by simp [bind, Except.bind])
  | ok found =>
    rw [hfound] at h
    obtain rfl := Except.ok.inj h
    exact ⟨found, rfl, List.mergeSort_perm _ _, FilePath.pairwise_mergeSort _⟩

namespace Input

open DocumentSource

/-- The sources that an input stands for, lowest precedence first. -/
inductive Supplies (disk : Disk) : Input → List Source → Prop
  /-- A file stands for the document in it. -/
  | file {spec : FileSpec} {document : DocumentSource} (h : LiesAt disk spec.path document) :
      Supplies disk (.file spec) [document.toSource]
  /-- An optional file that does not exist stands for nothing. -/
  | missing {path : String} (h : ¬ disk.contains path) : Supplies disk (.file (.optional path)) []
  /-- A pattern stands for the documents in the files that match it, in the order of paths. -/
  | glob {pattern : String} {found paths : List String} {documents : List DocumentSource}
      (hfound : Glob.expand disk pattern = .ok found)
      (hperm : paths.Perm (found.filter disk.isFile))
      (hsorted : paths.Pairwise fun left right => FilePath.lessEq left right)
      (hdocuments : List.Forall₂ (LiesAt disk) paths documents) :
      Supplies disk (.glob pattern) (documents.map (·.toSource))
  /-- A text stands for the document that it is. -/
  | text {name content : String} {document : DocumentSource}
      (h : parse name content = .ok document) :
      Supplies disk (.text name content) [document.toSource]
  /-- A source stands for itself. -/
  | source (layer : Source) : Supplies disk (.source layer) [layer]

variable {disk : Disk} {input : Input} {sources : List Source}

/-- Documents loaded one after the other lie at their paths. -/
theorem exists_documents_of_mapM {paths : List String}
    (h : (paths.mapM fun path => (DocumentSource.load disk path).map (·.toSource)) = .ok sources) :
    ∃ documents, List.Forall₂ (LiesAt disk) paths documents ∧
      sources = documents.map (·.toSource) := by
  rw [mapM_eq_ok_iff] at h
  induction h with
  | nil => exact ⟨[], .nil, rfl⟩
  | @cons path _ _ _ hpath _ ih =>
    obtain ⟨documents, hdocuments, rfl⟩ := ih
    cases hload : DocumentSource.load disk path with
    | error error => exact absurd (hload ▸ hpath) (by simp [Except.map])
    | ok document =>
      rw [hload] at hpath
      obtain rfl := Except.ok.inj hpath
      exact ⟨document :: documents, .cons (load_eq_ok_iff.1 hload) hdocuments, rfl⟩

/-- A single document, if there is one, is the only source. -/
theorem eq_singleton_of_map {result : Except Error DocumentSource}
    (h : (result.map fun document => [document.toSource]) = .ok sources) :
    ∃ document, result = .ok document ∧ sources = [document.toSource] := by
  cases result with
  | error error => exact absurd h (by simp [Except.map])
  | ok document => exact ⟨document, rfl, (Except.ok.inj h).symm⟩

/-- Loading an input gives sources that it stands for. -/
theorem supplies_of_load (h : input.load disk = .ok sources) : Supplies disk input sources := by
  cases input with
  | file spec =>
    rw [load] at h
    split at h
    next hmissing =>
      obtain ⟨path, isOptional⟩ := spec
      rw [Bool.and_eq_true, Bool.not_eq_true'] at hmissing
      obtain ⟨rfl, hmissing⟩ := hmissing
      obtain rfl := Except.ok.inj h
      exact .missing (by simp [hmissing])
    next =>
      obtain ⟨document, hload, rfl⟩ := eq_singleton_of_map h
      exact .file (load_eq_ok_iff.1 hload)
  | glob pattern =>
    rw [load] at h
    split at h
    next => exact absurd h (by simp)
    next paths hpaths =>
      obtain ⟨found, hfound, hperm, hsorted⟩ := Glob.exists_expand_of_matchingFiles hpaths
      obtain ⟨documents, hdocuments, rfl⟩ := exists_documents_of_mapM h
      exact .glob hfound hperm hsorted hdocuments
  | text name content =>
    obtain ⟨document, hparse, rfl⟩ := eq_singleton_of_map h
    exact .text hparse
  | source layer =>
    obtain rfl := Except.ok.inj h
    exact .source layer

end Input

end LayeredConfig
