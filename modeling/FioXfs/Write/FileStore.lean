import FioXfs.Write.Removing
set_option autoImplicit false

/-!
# Files in their places

The files of a volume beside one another, each with its inode and blocks to itself.  One that is
made is added, one that is left with fewer names stays where it was, and one whose last name goes
is on its own until it does.
-/

namespace FioXfs

open FioXfs.Lib FioXfs.Alloc FioXfs.Bmap

namespace Volume

/-! ## Files and where they are -/

/-- A regular file: how many names it has, and its data. -/
structure StoredFile where
  links : Nat
  data : Bytes

/-- A file and where it is: the blocks of its runs and of its B+tree. -/
structure Located extends StoredFile where
  runs : List (Nat × Nat)
  tree : List (Nat × Nat)

/-- All its blocks. -/
def Located.blocks (f : Located) : Set Nat := covered (f.runs ++ f.tree)

section
variable {v v' : Volume} {L₀ : Ledger} {own own' : Nat → Option Located} {f : Located} {ino : Nat}

/-- The ledger with all the files in it. -/
def whole (L₀ : Ledger) (own : Nat → Option Located) : Ledger :=
  ⟨L₀.blocks ∪ {x | ∃ ino f, own ino = some f ∧ x ∈ f.blocks},
    L₀.inodes ∪ {ino | ∃ f, own ino = some f}⟩

theorem le_whole : L₀ ≤ whole L₀ own := ⟨Set.subset_union_left, Set.subset_union_left⟩

theorem whole_none : whole L₀ (fun _ => none) = L₀ := by
  refine congrArg₂ Ledger.mk (Set.ext fun x => ⟨fun hx => hx.elim id ?_, Or.inl⟩)
    (Set.ext fun j => ⟨fun hj => hj.elim id ?_, Or.inl⟩)
  · rintro ⟨_, _, hno, -⟩
    cases hno
  · rintro ⟨_, hno⟩
    cases hno

theorem whole_mono (h : ∀ ino f, own' ino = some f → own ino = some f) :
    whole L₀ own' ≤ whole L₀ own := by
  refine ⟨Set.union_subset_union_right _ ?_, Set.union_subset_union_right _ ?_⟩
  · rintro x ⟨ino, f, hf, hx⟩
    exact ⟨ino, f, h ino f hf, hx⟩
  · rintro ino ⟨f, hf⟩
    exact ⟨f, h ino f hf⟩

theorem fileLedger_le_whole (h : own ino = some f) : fileLedger ino f.runs f.tree ≤ whole L₀ own := by
  refine ⟨fun x hx => Or.inr ⟨ino, f, h, hx⟩, ?_⟩
  rintro j rfl
  exact Or.inr ⟨f, h⟩

/-- One more file. -/
theorem whole_update (h : own ino = none) :
    whole L₀ (Function.update own ino (some f)) = withFile (whole L₀ own) ino f.runs f.tree := by
  have hother : ∀ {j g}, own j = some g → Function.update own ino (some f) j = some g :=
      fun {j g} hj => by
    rwa [Function.update_of_ne (fun heq => by rw [heq, h] at hj; cases hj)]
  have hcases : ∀ {j g}, Function.update own ino (some f) j = some g →
      j = ino ∧ g = f ∨ own j = some g := by
    intro j g hj
    by_cases heq : j = ino
    · subst heq
      rw [Function.update_self] at hj
      exact Or.inl ⟨rfl, (Option.some.inj hj).symm⟩
    · rw [Function.update_of_ne heq] at hj
      exact Or.inr hj
  refine congrArg₂ Ledger.mk (Set.ext fun x => ⟨?_, ?_⟩) (Set.ext fun j => ⟨?_, ?_⟩)
  · rintro (hx | ⟨j, g, hj, hx⟩)
    · exact Or.inl (Or.inl hx)
    · rcases hcases hj with ⟨rfl, rfl⟩ | hj
      · exact Or.inr hx
      · exact Or.inl (Or.inr ⟨j, g, hj, hx⟩)
  · rintro ((hx | ⟨j, g, hj, hx⟩) | hx)
    · exact Or.inl hx
    · exact Or.inr ⟨j, g, hother hj, hx⟩
    · exact Or.inr ⟨ino, f, Function.update_self .., hx⟩
  · rintro (hj | ⟨g, hj⟩)
    · exact Or.inr (Or.inl hj)
    · rcases hcases hj with ⟨rfl, rfl⟩ | hj
      · exact Or.inl rfl
      · exact Or.inr (Or.inr ⟨g, hj⟩)
  · rintro (rfl | hj | ⟨g, hj⟩)
    · exact Or.inr ⟨f, Function.update_self ..⟩
    · exact Or.inl hj
    · exact Or.inr ⟨g, hother hj⟩

/-- Files in place, no two sharing an inode or a block, nor with what the ledger has besides. -/
structure HoldsFiles (L₀ : Ledger) (own : Nat → Option Located) (v : Volume) : Prop where
  fitting : v.sb.Fitting
  opened : v.Opened
  minds : v.Minds (whole L₀ own)
  files : ∀ ino f, own ino = some f → FileAt v.sb v.dev ino f.links f.data f.runs f.tree
  clear : ∀ ino f, own ino = some f → ∃ k b i, NodeAt v.sb ino k b i ∧
    v.sb.agbToFsb k b ∉ (whole L₀ own).blocks
  new : ∀ ino f, own ino = some f → ino ∉ L₀.inodes ∧ ∀ x ∈ f.blocks, x ∉ L₀.blocks
  apart : ∀ ino ino' f f', own ino = some f → own ino' = some f' → ino ≠ ino' →
    ∀ x ∈ f.blocks, x ∉ f'.blocks

/-- What is kept of the files stays in place. -/
theorem HoldsFiles.kept (h : HoldsFiles L₀ own v) (hsub : ∀ ino f, own' ino = some f → own ino = some f)
    (hkept : Kept ((whole L₀ own').Names v.sb) (whole L₀ own') v v') : HoldsFiles L₀ own' v' where
  fitting := hkept.sb ▸ h.fitting
  opened := h.opened.kept hkept
  minds := hkept.minds
  files ino f hf := by
    rw [hkept.sb]
    exact (h.files ino f (hsub ino f hf)).sameOn h.fitting hkept.dev fun p hp =>
      hp.mono (fileLedger_le_whole hf)
  clear ino f hf := by
    obtain ⟨k, b, i, hnode, hclear⟩ := h.clear ino f (hsub ino f hf)
    rw [hkept.sb]
    exact ⟨k, b, i, hnode, fun hmem => hclear ((whole_mono hsub).1 hmem)⟩
  new ino f hf := h.new ino f (hsub ino f hf)
  apart ino ino' f f' hf hf' := h.apart ino ino' f f' (hsub ino f hf) (hsub ino' f' hf')

/-- What one more file brings into the map. -/
theorem update_some_cases {j : Nat} {g : Located} (hj : Function.update own ino (some f) j = some g) :
    j = ino ∧ g = f ∨ j ≠ ino ∧ own j = some g := by
  by_cases heq : j = ino
  · subst heq
    rw [Function.update_self] at hj
    exact Or.inl ⟨rfl, (Option.some.inj hj).symm⟩
  · rw [Function.update_of_ne heq] at hj
    exact Or.inr ⟨heq, hj⟩

theorem update_none_cases {j : Nat} {g : Located} (hj : Function.update own ino none j = some g) :
    j ≠ ino ∧ own j = some g := by
  by_cases heq : j = ino
  · subst heq
    rw [Function.update_self] at hj
    cases hj
  · rw [Function.update_of_ne heq] at hj
    exact ⟨heq, hj⟩

/-- The ledger is the same with a file taken out and put back. -/
theorem whole_put_back {g : Located} (hf : own ino = some f) (hruns : g.runs = f.runs) (htree : g.tree = f.tree) :
    withFile (whole L₀ (Function.update own ino none)) ino g.runs g.tree = whole L₀ own := by
  rw [hruns, htree, ← whole_update (Function.update_self ..), Function.update_idem, ← hf, Function.update_eq_self]

/-- One more file in place, in an inode and blocks that are nobody's. -/
theorem HoldsFiles.add (h : HoldsFiles L₀ own v) (hnone : own ino = none)
    (hfile : FileAt v.sb v.dev ino f.links f.data f.runs f.tree)
    (hminds : v.Minds (withFile (whole L₀ own) ino f.runs f.tree)) (hnew : ino ∉ L₀.inodes)
    (hout : ∀ x ∈ f.blocks, x ∉ (whole L₀ own).blocks)
    (hclear : ∀ j, j = ino ∨ (∃ g, own j = some g) → ∃ k b i, NodeAt v.sb j k b i ∧
      v.sb.agbToFsb k b ∉ (withFile (whole L₀ own) ino f.runs f.tree).blocks) :
    HoldsFiles L₀ (Function.update own ino (some f)) v where
  fitting := h.fitting
  opened := h.opened
  minds := whole_update hnone ▸ hminds
  files j g hj := by
    rcases update_some_cases hj with ⟨rfl, rfl⟩ | ⟨-, hj⟩
    · exact hfile
    · exact h.files j g hj
  clear j g hj := by
    rw [whole_update hnone]
    exact hclear j ((update_some_cases hj).imp And.left fun hold => ⟨g, hold.2⟩)
  new j g hj := by
    rcases update_some_cases hj with ⟨rfl, rfl⟩ | ⟨-, hj⟩
    · exact ⟨hnew, fun x hx hL => hout x hx (Or.inl hL)⟩
    · exact h.new j g hj
  apart j j' g g' hj hj' hne x hx hx' := by
    rcases update_some_cases hj with ⟨rfl, rfl⟩ | ⟨-, hold⟩
    · rcases update_some_cases hj' with ⟨heq, -⟩ | ⟨-, hold'⟩
      · exact hne heq.symm
      · exact hout x hx (Or.inr ⟨j', g', hold', hx'⟩)
    · rcases update_some_cases hj' with ⟨-, rfl⟩ | ⟨-, hold'⟩
      · exact hout x hx' (Or.inr ⟨j, g, hold, hx⟩)
      · exact h.apart j j' g g' hold hold' hne x hx hx'

/-- A file that is made is one more. -/
theorem HoldsFiles.made {links : Nat} {data : Bytes} (h : HoldsFiles L₀ own v)
    (hmade : FileMade (whole L₀ own) v ino links data v') :
    ∃ runs tree, HoldsFiles L₀ (Function.update own ino (some ⟨⟨links, data⟩, runs, tree⟩)) v' := by
  obtain ⟨hnew, runs, tree, hkept, hfile, hlacks, k, b, i, hnode, hclear⟩ := hmade
  have hnone : own ino = none := by
    cases hown : own ino with
    | none => rfl
    | some g => exact (hnew (Or.inr ⟨g, hown⟩)).elim
  have hback : Kept ((whole L₀ own).Names v.sb) (whole L₀ own) v v' :=
    hkept.mono h.fitting.addressable (Ledger.le_trans (Ledger.le_withInode _ ino) (Ledger.le_withBlocks _ _))
  refine ⟨runs, tree, (h.kept (fun _ _ => id) hback).add hnone (hkept.sb ▸ hfile) hkept.minds
    (fun hL => hnew (Or.inl hL)) (fun x hx => hlacks.blocks x hx) fun j hj => ?_⟩
  rw [hkept.sb]
  rcases hj with rfl | ⟨g, hj⟩
  · refine ⟨k, b, i, hnode, fun hmem => hmem.elim hclear fun hmem => ?_⟩
    exact hlacks.inodes k hnode.ag b hnode.block hmem i hnode.index (Or.inl hnode.number)
  · obtain ⟨k', b', i', hnode', hclear'⟩ := h.clear j g hj
    refine ⟨k', b', i', hnode', fun hmem => hmem.elim hclear' fun hmem => ?_⟩
    refine hlacks.inodes k' hnode'.ag b' hnode'.block hmem i' hnode'.index (Or.inr (Or.inr ⟨g, ?_⟩))
    rw [hnode'.number]
    exact hj

/-- A file that is left with another count of names is the same file. -/
theorem HoldsFiles.relinked {n : Nat} (h : HoldsFiles L₀ own v) (hf : own ino = some f)
    (hkept : Kept ((whole L₀ (Function.update own ino none)).Names v.sb)
      (withFile (whole L₀ (Function.update own ino none)) ino f.runs f.tree) v v')
    (hfile : FileAt v.sb v'.dev ino n f.data f.runs f.tree) :
    HoldsFiles L₀ (Function.update own ino (some ⟨⟨n, f.data⟩, f.runs, f.tree⟩)) v' := by
  have hwhole := @whole_put_back L₀ own f ino f hf rfl rfl
  have hrest := h.kept (fun j g hj => (update_none_cases hj).2) (hkept.mono h.fitting.addressable le_withFile)
  have hadd := @HoldsFiles.add v' L₀ _ ⟨⟨n, f.data⟩, f.runs, f.tree⟩ ino hrest (Function.update_self ..)
    (hkept.sb ▸ hfile) hkept.minds (h.new ino f hf).1 (fun x hx => ?_) fun j hj => ?_
  · rwa [Function.update_idem] at hadd
  · rintro (hL | ⟨j, g, hj, hx'⟩)
    · exact (h.new ino f hf).2 x hx hL
    · obtain ⟨hne, hj⟩ := update_none_cases hj
      exact h.apart ino j f g hf hj hne.symm x hx hx'
  · have hj : ∃ g, own j = some g := by
      rcases hj with rfl | ⟨g, hj⟩
      · exact ⟨f, hf⟩
      · exact ⟨g, (update_none_cases hj).2⟩
    obtain ⟨g, hj⟩ := hj
    rw [hkept.sb, hwhole]
    exact h.clear j g hj

/-- A file's inode and blocks are its own, besides the other files. -/
theorem HoldsFiles.soleFile (h : HoldsFiles L₀ own v) (hf : own ino = some f) :
    SoleFile (whole L₀ (Function.update own ino none)) v ino f.links f.data f.runs f.tree := by
  have hwhole := @whole_put_back L₀ own f ino f hf rfl rfl
  refine
    { file := h.files ino f hf
      minds := hwhole.symm ▸ h.minds
      new := ?_
      out := fun x hx => ?_
      clear := hwhole.symm ▸ h.clear ino f hf }
  · rintro (hL | ⟨g, hg⟩)
    · exact (h.new ino f hf).1 hL
    · exact (update_none_cases hg).1 rfl
  · rintro (hL | ⟨j, g, hj, hx'⟩)
    · exact (h.new ino f hf).2 x hx hL
    · obtain ⟨hne, hj⟩ := update_none_cases hj
      exact h.apart ino j f g hf hj hne.symm x hx hx'

end

end Volume

end FioXfs
