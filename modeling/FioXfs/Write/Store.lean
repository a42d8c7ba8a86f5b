import FioXfs.Write.FileStore
import FioXfs.Write.LinkMade
import FioXfs.Write.Listing
set_option autoImplicit false

/-!
# The files of a volume

What a volume's files are for: a store of names in directories and of files by their inodes, in
which a file is written under a name, new or not, and a name is removed, the file going with its
last.  The volume keeps to that store through any run of writing and removing, with any failure of
the device on the way, and what goes is free again.
-/

namespace FioXfs

open FioXfs.Lib FioXfs.Alloc FioXfs.Dir FioXfs.Bmap

/-! ## The store -/

/-- What each name in a directory refers to, and the files by their inodes. -/
structure FileStore where
  names : Nat → Bytes → Option (Nat × FileType)
  files : Nat → Option Volume.StoredFile

/-- What is done to the files, and what came of it: a file is written under a name in a directory,
which gives an inode, or is not; a name is removed, or is not; or the path leads to no directory. -/
inductive Event where
  | wrote (dino : Nat) (name data : Bytes) (ino : Nat)
  | notWritten (dino : Nat) (name : Bytes)
  | unlinked (dino : Nat) (name : Bytes)
  | notUnlinked (dino : Nat) (name : Bytes)
  | astray

/-- The directory and the name it is about. -/
def Event.place : Event → Option (Nat × Bytes)
  | wrote dino name _ _ => some (dino, name)
  | notWritten dino name => some (dino, name)
  | unlinked dino name => some (dino, name)
  | notUnlinked dino name => some (dino, name)
  | astray => none

namespace FileStore

def enter (s : FileStore) (dino : Nat) (name : Bytes) (found : Option (Nat × FileType)) : FileStore :=
  { s with names := Function.update s.names dino (Function.update (s.names dino) name found) }

def put (s : FileStore) (ino : Nat) (f : Option Volume.StoredFile) : FileStore :=
  { s with files := Function.update s.files ino f }

/-- A file with one name less, which with the last one goes. -/
def less (f : Volume.StoredFile) : Option Volume.StoredFile :=
  if f.links ≤ 1 then none else some { f with links := f.links - 1 }

/-- The store after an event.  A failure may lose the file it is about, and nothing else. -/
def after (s : FileStore) : Event → FileStore
  | .wrote dino name data ino =>
      match s.names dino name with
      | none => (s.put ino (some ⟨1, data⟩)).enter dino name (some (ino, .file))
      | some _ => s.put ino ((s.files ino).map fun f => { f with data := data })
  | .notWritten dino name =>
      match s.names dino name with
      | some (ino, .file) => s.put ino none
      | _ => s
  | .unlinked dino name =>
      match s.names dino name with
      | some (ino, _) => (s.put ino ((s.files ino).bind less)).enter dino name none
      | none => s
  | .notUnlinked dino name =>
      match s.names dino name with
      | some (ino, _) => s.put ino none
      | none => s
  | .astray => s

/-- The event is about a directory of `D`, and a name in it that is new or is that of a file. -/
def Admits (s : FileStore) (D : Set Nat) (e : Event) : Prop :=
  ∀ dino name, e.place = some (dino, name) → dino ∈ D ∧
    ∀ ino kind, s.names dino name = some (ino, kind) → ∃ f, s.files ino = some f

end FileStore

namespace Volume

/-! ## What happens to the volume -/

/-- The event as it happens to a volume. -/
inductive Happens : Event → Volume → Volume → Prop where
  | wrote {v v' : Volume} {path name data : Bytes} {attrs : Option Attrs} {dino ino : Nat}
      (hdir : v.parentDir path = .ok (dino, name)) (hsize : divCeil data.length v.sb.blockSize < 2 ^ 32)
      (hrun : writeFile path data attrs v = .ok ino v') : Happens (.wrote dino name data ino) v v'
  | notWritten {v v' : Volume} {path name data : Bytes} {attrs : Option Attrs} {dino : Nat} {e : Error}
      (hdir : v.parentDir path = .ok (dino, name)) (hsize : divCeil data.length v.sb.blockSize < 2 ^ 32)
      (hrun : writeFile path data attrs v = .error e v') : Happens (.notWritten dino name) v v'
  | unlinked {v v' : Volume} {path name : Bytes} {dino : Nat} (hdir : v.parentDir path = .ok (dino, name))
      (hrun : unlink path v = .ok () v') : Happens (.unlinked dino name) v v'
  | notUnlinked {v v' : Volume} {path name : Bytes} {dino : Nat} {e : Error}
      (hdir : v.parentDir path = .ok (dino, name)) (hrun : unlink path v = .error e v') :
      Happens (.notUnlinked dino name) v v'
  | strayWrite {v : Volume} {path data : Bytes} {attrs : Option Attrs} {e : Error}
      (hdir : v.parentDir path = .error e) : Happens .astray v (outState (writeFile path data attrs v))
  | strayUnlink {v : Volume} {path : Bytes} {e : Error} (hdir : v.parentDir path = .error e) :
      Happens .astray v (outState (unlink path v))

/-- One event, and the store that follows it. -/
def FileStep (D : Set Nat) (p q : Volume × FileStore) : Prop :=
  ∃ e, Happens e p.1 q.1 ∧ p.2.Admits D e ∧ q.2 = p.2.after e

/-- The blocks that the map of inode `ino` had are free. -/
def GaveBack (v v' : Volume) (ino : Nat) : Prop :=
  ∀ i es bs, v.inode ino = .ok i → v.forkMap i false = .ok (es, bs) →
    ∀ x ∈ covered (extentRuns es ++ bs.map (·, 1)), v'.BlockFree x

/-- What comes of an event besides: a new file has an inode that no file had, nor what is `taken`; one
that is written over gives back its blocks; a file that goes with its last name gives back its blocks
and its inode, and is no file any more. -/
def Outcome (taken : Set Nat) (s : FileStore) (v v' : Volume) : Event → Prop
  | .wrote dino name _ ino => s.names dino name = none ∧ s.files ino = none ∧ ino ∉ taken ∨
      s.names dino name = some (ino, .file) ∧ GaveBack v v' ino
  | .unlinked dino name => ∃ ino kind f, s.names dino name = some (ino, kind) ∧ s.files ino = some f ∧
      (f.links ≤ 1 → GaveBack v v' ino ∧ v'.NodeFree ino ∧ ∀ data, ¬v'.ReadsFile ino data)
  | _ => True

section
variable {v v' : Volume} {path name data : Bytes} {attrs : Option Attrs} {dino ino : Nat} {e : Error}

/-- The last name of a path is no dot entry. -/
theorem name_of_parentDir (h : v.parentDir path = .ok (dino, name)) : name ≠ DOT ∧ name ≠ DOTDOT := by
  unfold parentDir at h
  obtain ⟨⟨parent, last⟩, hsplit, h⟩ := except_bind_eq_ok.mp h
  obtain ⟨_, -, h⟩ := except_bind_eq_ok.mp h
  obtain ⟨_, -, h⟩ := except_bind_eq_ok.mp h
  obtain ⟨_, -, h⟩ := except_bind_eq_ok.mp h
  obtain ⟨-, rfl⟩ := Prod.mk.inj (Except.ok.inj h)
  unfold splitLast at hsplit
  obtain ⟨_, hname, hsplit⟩ := except_bind_eq_ok.mp hsplit
  obtain ⟨-, rfl⟩ := Prod.mk.inj (Except.ok.inj hsplit)
  have hnot := except_throwIf_eq_ok.mp hname
  exact ⟨fun heq => hnot (Or.inr (Or.inl heq)), fun heq => hnot (Or.inr (Or.inr (Or.inl heq)))⟩

/-- A file is written under a name that is not there by creating it. -/
theorem writeFile_absent (hdir : v.parentDir path = .ok (dino, name))
    (hentry : v.entry dino name = .ok none) :
    writeFile path data attrs v = createFile path data (attrs.getD .default) v := by
  unfold writeFile
  rw [get_bind_apply, bind_of_ok (liftE_eq_ok.mpr ⟨hdir, rfl⟩)]
  simp only
  rw [bind_of_ok (liftE_eq_ok.mpr ⟨hentry, rfl⟩)]

/-- One that is there is replaced. -/
theorem writeFile_present (hdir : v.parentDir path = .ok (dino, name))
    (hentry : v.entry dino name = .ok (some (ino, .file))) :
    writeFile path data attrs v = replaceFile path ino data attrs v := by
  unfold writeFile
  rw [get_bind_apply, bind_of_ok (liftE_eq_ok.mpr ⟨hdir, rfl⟩)]
  simp only
  rw [bind_of_ok (liftE_eq_ok.mpr ⟨hentry, rfl⟩)]

/-- Anything else is left alone. -/
theorem writeFile_other {kind : FileType} (hdir : v.parentDir path = .ok (dino, name))
    (hentry : v.entry dino name = .ok (some (ino, kind))) (hkind : kind ≠ .file) :
    ∃ e, writeFile path data attrs v = .error e v := by
  unfold writeFile
  rw [get_bind_apply, bind_of_ok (liftE_eq_ok.mpr ⟨hdir, rfl⟩)]
  simp only
  rw [bind_of_ok (liftE_eq_ok.mpr ⟨hentry, rfl⟩)]
  cases kind with
  | file => exact absurd rfl hkind
  | _ => exact ⟨_, rfl⟩

theorem writeFile_astray (hdir : v.parentDir path = .error e) : outState (writeFile path data attrs v) = v := by
  unfold writeFile
  rw [get_bind_apply, bind_of_error (liftE_eq_error.mpr ⟨hdir, rfl⟩)]
  rfl

theorem unlink_astray (hdir : v.parentDir path = .error e) : outState (unlink path v) = v := by
  unfold unlink
  rw [get_bind_apply, bind_of_error (liftE_eq_error.mpr ⟨hdir, rfl⟩)]
  rfl

/-- There is nothing to remove under a name that is not there. -/
theorem unlink_absent (hdir : v.parentDir path = .ok (dino, name)) (hentry : v.entry dino name = .ok none) :
    ∃ e, unlink path v = .error e v := by
  unfold unlink
  rw [get_bind_apply, bind_of_ok (liftE_eq_ok.mpr ⟨hdir, rfl⟩)]
  simp only
  rw [bind_of_ok (liftE_eq_ok.mpr ⟨hentry, rfl⟩)]
  exact ⟨_, rfl⟩

/-! ## Where names change -/

/-- A change of names that fails leaves those in memory as they were. -/
theorem changeNames_failed {f : OrdMap Bytes (Nat × Nat) → OrdMap Bytes (Nat × Nat)}
    (h : changeNames dino f v = .error e v') : SameNames v v' := by
  unfold changeNames at h
  rcases bind_eq_error.mp h with hload | ⟨_, v1, -, hset⟩
  · unfold dirState at hload
    rcases bind_eq_error.mp hload with hw | ⟨_, v1, hw, hnext⟩
    · exact steady_writer.error hw
    have hsame : SameNames v v1 := steady_writer.ok hw
    rcases bind_eq_error.mp hnext with hget | ⟨w, v2, hget, hread⟩
    · exact IsTrans.trans _ _ _ hsame (steady_getWriter.error hget)
    obtain ⟨-, rfl⟩ := getWriter_eq_ok hget
    split at hread
    · simp only [get_bind_apply] at hread
      rcases bind_eq_error.mp hread with hdir | ⟨dir, v3, hdir, hread'⟩
      · obtain ⟨-, rfl⟩ := liftE_eq_error.mp hdir
        exact hsame
      obtain ⟨-, rfl⟩ := liftE_eq_ok.mp hdir
      rcases bind_eq_error.mp hread' with hnames | ⟨names, v4, -, hset⟩
      · obtain ⟨-, rfl⟩ := liftE_eq_error.mp hnames
        exact hsame
      · cases hset
    · cases hread
  · cases hset

/-- The name of a new file goes in last. -/
theorem createFile_names {a : Attrs} (hdir : v.parentDir path = .ok (dino, name)) :
    (∀ e, createFile path data a v = .error e v' → SameNames v v') ∧
      ∀ ino, createFile path data a v = .ok ino v' →
        ∃ u, SameNames v u ∧ addName dino name ino .file u = .ok () v' := by
  have hstore : ∀ {ino size : Nat}, Steady SameNames (recover (storeData ino size data) fun e => do
      unallocIno ino
      throw e) := steady_storeData.recover fun _ => Steady.bind steady_unallocIno fun _ => steady_throw _
  have hplace : ∀ {node v1}, createNode path (Mode.IFREG ||| a.perms) a.uid a.gid 1 v = .ok node v1 →
      node.1 = dino ∧ node.2.1 = name := by
    intro node v1 hnode
    unfold createNode at hnode
    rw [get_bind_apply, bind_of_ok (liftE_eq_ok.mpr ⟨hdir, rfl⟩)] at hnode
    simp only at hnode
    obtain ⟨_, _, -, hnode⟩ := bind_eq_ok.mp hnode
    obtain ⟨-, hnode⟩ := act_throwIf_bind_eq_ok.mp hnode
    obtain ⟨_, _, -, hnode⟩ := bind_eq_ok.mp hnode
    obtain ⟨_, _, -, hnode⟩ := bind_eq_ok.mp hnode
    obtain ⟨_, _, -, hnode⟩ := bind_eq_ok.mp hnode
    obtain ⟨rfl, -⟩ := EStateM.Result.ok.inj hnode
    exact ⟨rfl, rfl⟩
  have hleaves : Leaves (createFile path data a) v (fun _ v' => SameNames v v')
      fun ino v' => ∃ u, SameNames v u ∧ addName dino name ino .file u = .ok () v' := by
    unfold createFile
    refine ((steady_createNode v).with_ok fun _ _ hrun => hplace hrun).bind
      fun node v1 h1 => ?_
    obtain ⟨dino', name', ino, raw⟩ := node
    obtain ⟨h1, rfl, rfl⟩ := h1
    refine ((hstore v1).mono (fun _ _ h => IsTrans.trans _ _ _ h1 h) fun _ _ h => IsTrans.trans _ _ _ h1 h).bind
      fun out v2 h2 => ?_
    obtain ⟨format, fork, used, n⟩ := out
    simp only
    refine ((steady_liftE _ v2).mono (fun _ _ h => IsTrans.trans _ _ _ h2 h)
      fun _ _ h => IsTrans.trans _ _ _ h2 h).bind fun raw' v3 h3 => ?_
    refine ((steady_writeRaw v3).mono (fun _ _ h => IsTrans.trans _ _ _ h3 h)
      fun _ _ h => IsTrans.trans _ _ _ h3 h).bind fun _ v4 h4 => ?_
    have hadd : Leaves (addName dino' name' ino .file) v4 (fun _ v' => SameNames v v')
        fun _ v' => ∃ u, SameNames v u ∧ addName dino' name' ino .file u = .ok () v' :=
      leaves_iff.mpr ⟨fun _ v5 h5 => ⟨v4, h4, h5⟩, fun e v5 h5 =>
        IsTrans.trans _ _ _ h4 (changeNames_failed h5)⟩
    exact hadd.bind fun _ v5 h5 => leaves_pure h5
  exact ⟨fun e h => hleaves.error h, fun ino h => hleaves.ok h⟩

/-- The name that is removed goes last. -/
theorem unlink_names (hdir : v.parentDir path = .ok (dino, name)) :
    (∀ e, unlink path v = .error e v' → SameNames v v') ∧ (unlink path v = .ok () v' →
      ∃ u, SameNames v u ∧ changeNames dino (fun names => names.erase name) u = .ok () v') := by
  have hleaves : Leaves (unlink path) v (fun _ v' => SameNames v v')
      fun _ v' => ∃ u, SameNames v u ∧ changeNames dino (fun names => names.erase name) u = .ok () v' := by
    unfold unlink
    refine leaves_get_bind ?_
    rw [hdir]
    refine Leaves.bind (leaves_liftE (Q := fun dir v1 => dir = (dino, name) ∧ v1 = v) (fun _ _ => fun _ => rfl)
      fun dir hd => ⟨(Except.ok.inj hd).symm, rfl⟩) fun dir v1 h1 => ?_
    obtain ⟨rfl, rfl⟩ := h1
    simp only
    refine (steady_liftE _ v1).bind fun found v2 h2 => ?_
    split
    · exact leaves_throw h2
    · rename_i ino kind
      refine ((steady_throwIf _ _ v2).mono (fun _ _ h => IsTrans.trans _ _ _ h2 h)
        fun _ _ h => IsTrans.trans _ _ _ h2 h).bind fun _ v3 h3 => ?_
      refine ((steady_writer v3).mono (fun _ _ h => IsTrans.trans _ _ _ h3 h)
        fun _ _ h => IsTrans.trans _ _ _ h3 h).bind fun _ v4 h4 => ?_
      refine ((steady_dropLink v4).mono (fun _ _ h => IsTrans.trans _ _ _ h4 h)
        fun _ _ h => IsTrans.trans _ _ _ h4 h).bind fun _ v5 h5 => ?_
      exact leaves_iff.mpr ⟨fun _ v6 h6 => ⟨v5, h5, h6⟩, fun e v6 h6 =>
        IsTrans.trans _ _ _ h5 (changeNames_failed h6)⟩
  exact ⟨fun e h => hleaves.error h, fun h => hleaves.ok h⟩

end

/-! ## The files of the store -/

/-- The files that are in place, wherever they are. -/
def stored (own : Nat → Option Located) (ino : Nat) : Option StoredFile := (own ino).map Located.toStoredFile

/-- The files of the store are in place, and what the ledger had is as it was. -/
structure KeepsFiles (L₀ : Ledger) (v₀ : Volume) (files : Nat → Option StoredFile) (v : Volume) : Prop where
  held : ∃ own, HoldsFiles L₀ own v ∧ stored own = files
  sb : v.sb = v₀.sb
  dev : Device.SameOn (L₀.Names v₀.sb) v₀.dev v.dev

section
variable {v v' v₀ u : Volume} {L L' L₀ : Ledger} {files files' : Nat → Option StoredFile} {D : Set Nat}
  {own : Nat → Option Located} {f : StoredFile} {s : FileStore} {path name data : Bytes} {attrs : Option Attrs}
  {dino ino links : Nat} {kind : FileType} {e : Error} {runs tree : List (Nat × Nat)}

theorem stored_update {g : Option Located} :
    stored (Function.update own ino g) = Function.update (stored own) ino (g.map Located.toStoredFile) :=
  Function.comp_update ..

/-- A step that keeps the ledger leaves the device's old bytes. -/
theorem KeepsFiles.kept (h : KeepsFiles L₀ v₀ files v) (hle : L₀ ≤ L) (hkept : Kept (L.Names v.sb) L' v v')
    (hheld : ∃ own, HoldsFiles L₀ own v' ∧ stored own = files') : KeepsFiles L₀ v₀ files' v' where
  held := hheld
  sb := hkept.sb.trans h.sb
  dev := h.dev.trans (hkept.dev.mono fun p hp => by
    rw [h.sb]
    exact hp.mono hle)

/-- The ledger's bytes are the same from one volume to another. -/
theorem KeepsFiles.sameOn (h : KeepsFiles L₀ v₀ files v) (h' : KeepsFiles L₀ v₀ files' v') :
    v'.sb = v.sb ∧ Device.SameOn (L₀.Names v.sb) v.dev v'.dev :=
  ⟨h'.sb.trans h.sb.symm, h.sb ▸ h.dev.symm.trans h'.dev⟩

/-- A file of the store is on its own, and the others stay where the rest of the ledger is kept. -/
theorem KeepsFiles.sole (h : KeepsFiles L₀ v₀ files v) (hfile : files ino = some f) :
    ∃ (own : Nat → Option Located) (g : Located), HoldsFiles L₀ own v ∧ own ino = some g ∧ stored own = files ∧
      g.toStoredFile = f ∧
      SoleFile (whole L₀ (Function.update own ino none)) v ino f.links f.data g.runs g.tree ∧
      HoldsFiles L₀ (Function.update own ino none) v ∧
      ∀ v', Kept ((whole L₀ (Function.update own ino none)).Names v.sb)
        (whole L₀ (Function.update own ino none)) v v' →
          KeepsFiles L₀ v₀ (Function.update files ino none) v' := by
  obtain ⟨own, hfiles, rfl⟩ := h.held
  obtain ⟨g, hown, rfl⟩ := Option.map_eq_some_iff.mp hfile
  have hsub : ∀ j g, Function.update own ino none j = some g → own j = some g := fun j g hj =>
    (update_none_cases hj).2
  have hrest := hfiles.kept hsub (hfiles.minds.kept.mono hfiles.fitting.addressable (whole_mono hsub))
  exact ⟨own, g, hfiles, hown, rfl, rfl, hfiles.soleFile hown, hrest, fun v' hkept =>
    h.kept le_whole hkept ⟨_, hfiles.kept hsub hkept, stored_update⟩⟩

/-- A file that is made is added to the store. -/
theorem KeepsFiles.made (h : KeepsFiles L₀ v₀ files v) (hfiles : HoldsFiles L₀ own v)
    (hmade : FileMade (whole L₀ own) v ino links data v') :
    KeepsFiles L₀ v₀ (Function.update (stored own) ino (some ⟨links, data⟩)) v' := by
  obtain ⟨runs, tree, hkept, -⟩ := hmade.made
  obtain ⟨runs', tree', hheld⟩ := hfiles.made hmade
  exact h.kept le_whole hkept ⟨_, hheld, stored_update⟩

theorem KeepsFiles.create {a : Attrs} (h : KeepsFiles L₀ v₀ files v)
    (hsize : divCeil data.length v.sb.blockSize < 2 ^ 32) :
    Leaves (createFile path data a) v (fun _ v' => KeepsFiles L₀ v₀ files v') fun ino v' =>
      KeepsFiles L₀ v₀ (Function.update files ino (some ⟨1, data⟩)) v' ∧ files ino = none ∧ ino ∉ L₀.inodes := by
  obtain ⟨own, hfiles, rfl⟩ := h.held
  refine (createFile_leaves hfiles.minds hfiles.fitting hfiles.opened hsize).mono (fun e v' hkept => ?_)
    fun ino v' hmade => ⟨h.made hfiles hmade, ?_, fun hL => hmade.new (Or.inl hL)⟩
  · exact h.kept le_whole hkept ⟨own, hfiles.kept (fun _ _ => id) hkept, rfl⟩
  · refine Option.map_eq_none_iff.mpr (Option.eq_none_iff_forall_not_mem.mpr fun g hg => ?_)
    exact hmade.new (Or.inr ⟨g, hg⟩)

/-- The map of a file has its blocks and no others. -/
theorem FileAt.gaveBack (h : FileAt v.sb v.dev ino links data runs tree) (hf : v.sb.Fitting)
    (hfree : ∀ x ∈ covered (runs ++ tree), v'.BlockFree x) : GaveBack v v' ino := by
  intro i es bs hinode hmap x hx
  obtain ⟨a, i', bs', hslot, -, hparse, -, -, -, -, -, -, hmap', hbs⟩ := h.slot
  obtain rfl := Except.ok.inj (hinode.symm.trans ((hslot.inode_eq hf.addressable.sound).trans hparse))
  obtain ⟨rfl, rfl⟩ := Prod.mk.inj (Except.ok.inj (hmap.symm.trans hmap'))
  refine hfree x ?_
  rw [extentRuns_extentsFrom h.short, covered_append, covered_ones] at hx
  rw [covered_append]
  exact hx.imp_right fun hx => mem_expand_iff.mp (hbs.subset hx)

theorem KeepsFiles.replace (h : KeepsFiles L₀ v₀ files v) (hfile : files ino = some f)
    (hsize : divCeil data.length v.sb.blockSize < 2 ^ 32) :
    Leaves (replaceFile path ino data attrs) v (fun _ v' => KeepsFiles L₀ v₀ (Function.update files ino none) v')
      fun out v' => out = ino ∧ KeepsFiles L₀ v₀ (Function.update files ino (some { f with data := data })) v' ∧
        GaveBack v v' ino := by
  obtain ⟨own, g, hfiles, hown, rfl, rfl, hsole, hrest, hgone⟩ := h.sole hfile
  refine (hsole.replaceFile hrest.fitting hrest.opened hsize).mono (fun e v' hkept => hgone v' hkept)
    fun out v' hout => ⟨hout.1, ?_, hsole.file.gaveBack hrest.fitting hout.2.2⟩
  have hmade := h.made hrest hout.2.1
  rwa [stored_update, Function.update_idem] at hmade

/-- What is not a regular file is read as none. -/
theorem not_readsFile (h : ∀ i, v.inode ino = .ok i → i.mode = 0) : ¬v.ReadsFile ino data := by
  rintro ⟨i, _, hinode, htype, -⟩
  unfold Inode.fileType at htype
  rw [h i hinode, Nat.zero_and] at htype
  exact absurd htype (by decide)

/-- A file has one name less, or with its last name has gone. -/
theorem KeepsFiles.unlink (h : KeepsFiles L₀ v₀ files v) (hdir : v.parentDir path = .ok (dino, name))
    (hentry : v.entry dino name = .ok (some (ino, kind))) (hfile : files ino = some f) :
    Leaves (unlink path) v (fun _ v' => KeepsFiles L₀ v₀ (Function.update files ino none) v')
      fun _ v' => KeepsFiles L₀ v₀ (Function.update files ino (FileStore.less f)) v' ∧
        (f.links ≤ 1 → GaveBack v v' ino ∧ v'.NodeFree ino ∧ ∀ data, ¬v'.ReadsFile ino data) := by
  obtain ⟨own, g, hfiles, hown, rfl, rfl, hsole, hrest, hgone⟩ := h.sole hfile
  refine (hsole.unlink hrest.fitting hdir hentry).mono (fun _ v' hkept => hgone v' hkept) fun _ v' hun => ?_
  unfold FileStore.less
  split
  · rename_i hlast
    obtain ⟨hkept, hreturned⟩ := hun.last hlast
    exact ⟨hgone v' hkept, fun _ => ⟨hsole.file.gaveBack hrest.fitting hreturned.blocks, hreturned.node, fun data =>
      not_readsFile hreturned.gone⟩⟩
  · rename_i hmore
    obtain ⟨hkept, hleft⟩ := hun.more (not_le.mp hmore)
    exact ⟨h.kept le_whole hkept ⟨_, hfiles.relinked hown hkept hleft, stored_update⟩, fun hlast =>
      absurd hlast hmore⟩

end

/-! ## Runs -/

/-- The volume has the names and the files of the store. -/
structure Refines (L₀ : Ledger) (D : Set Nat) (v₀ : Volume) (s : FileStore) (v : Volume) : Prop where
  files : KeepsFiles L₀ v₀ s.files v
  names : ∀ dino ∈ D, Refers L₀ v dino (s.names dino)

section
variable {v v' v₀ u : Volume} {L₀ : Ledger} {files' : Nat → Option StoredFile} {D : Set Nat}
  {s : FileStore} {path name data : Bytes} {attrs : Option Attrs} {dino ino : Nat} {kind : FileType} {e : Error}

theorem Refines.fitting (h : Refines L₀ D v₀ s v) : v.sb.Fitting := by
  obtain ⟨_, hfiles, -⟩ := h.files.held
  exact hfiles.fitting

/-- What a name refers to is what the store says. -/
theorem Refines.entry (h : Refines L₀ D v₀ s v) (hdir : v.parentDir path = .ok (dino, name)) (hD : dino ∈ D) :
    v.entry dino name = .ok (s.names dino name) :=
  (h.names dino hD).entry h.fitting.addressable.sound (name_of_parentDir hdir).1 (name_of_parentDir hdir).2

/-- Where the names in memory are left alone they refer to what they did. -/
theorem Refines.steady (h : Refines L₀ D v₀ s v) (hfiles : KeepsFiles L₀ v₀ files' v') (hsame : SameNames v v') :
    Refines L₀ D v₀ ⟨s.names, files'⟩ v' := by
  obtain ⟨hsb, hdev⟩ := h.files.sameOn hfiles
  exact ⟨hfiles, fun d hd => (h.names d hd).sameOn h.fitting hsb hdev (hsame d)⟩

/-- A directory's names are changed last of all. -/
theorem Refines.renamed {change : OrdMap Bytes (Nat × Nat) → OrdMap Bytes (Nat × Nat)}
    {names' : Bytes → Option (Nat × FileType)} (h : Refines L₀ D v₀ s v) (hfiles : KeepsFiles L₀ v₀ files' v')
    (hsame : SameNames v u) (hrun : changeNames dino change u = .ok () v') (hD : dino ∈ D)
    (hnames : Refers L₀ u dino (s.names dino) → u.sb.Fitting → Refers L₀ v' dino names') :
    Refines L₀ D v₀ ⟨Function.update s.names dino names', files'⟩ v' := by
  obtain ⟨hsb, hdev⟩ := h.files.sameOn hfiles
  have hstill := changeNames_still.ok hrun
  have hsbu : u.sb = v.sb := hstill.sb.symm.trans hsb
  have hfit : u.sb.Fitting := hsbu ▸ h.fitting
  have hbefore : ∀ d ∈ D, Refers L₀ u d (s.names d) := fun d hd =>
    (h.names d hd).sameOn h.fitting hsbu (hstill.dev ▸ hdev) (hsame d)
  refine ⟨hfiles, fun d hd => ?_⟩
  change Refers L₀ v' d (Function.update s.names dino names' d)
  by_cases heq : d = dino
  · subst heq
    rw [Function.update_self]
    exact hnames (hbefore d hd) hfit
  · rw [Function.update_of_ne heq]
    obtain ⟨-, -, hother⟩ := changeNames_eq_ok (hbefore dino hD) hfit.addressable.sound hrun
    exact (hbefore d hd).sameOn hfit hstill.sb (hstill.dev ▸ .refl _ _) (hother d heq)

theorem Refines.wrote (h : Refines L₀ D v₀ s v) (hdir : v.parentDir path = .ok (dino, name))
    (hsize : divCeil data.length v.sb.blockSize < 2 ^ 32) (hadm : s.Admits D (.wrote dino name data ino))
    (hrun : writeFile path data attrs v = .ok ino v') :
    Refines L₀ D v₀ (s.after (.wrote dino name data ino)) v' ∧
      Outcome L₀.inodes s v v' (.wrote dino name data ino) := by
  obtain ⟨hD, hfile⟩ := hadm dino name rfl
  have hentry := h.entry hdir hD
  cases hname : s.names dino name with
  | none =>
    rw [hname] at hentry
    rw [writeFile_absent hdir hentry] at hrun
    obtain ⟨hmade, hnone, hnew⟩ := (h.files.create hsize).ok hrun
    obtain ⟨u, hsame, hadd⟩ := (createFile_names hdir).2 ino hrun
    refine ⟨?_, Or.inl ⟨hname, hnone, hnew⟩⟩
    simp only [FileStore.after, hname]
    exact h.renamed hmade hsame hadd hD fun hl hf => hl.added hf hadd
  | some found =>
    obtain ⟨ino', kind⟩ := found
    rw [hname] at hentry
    by_cases hkind : kind = .file
    · subst hkind
      obtain ⟨f, hf⟩ := hfile ino' .file hname
      rw [writeFile_present hdir hentry] at hrun
      obtain ⟨rfl, hset, hback⟩ := (h.files.replace hf hsize).ok hrun
      refine ⟨?_, Or.inr ⟨hname, hback⟩⟩
      simp only [FileStore.after, hname, hf]
      exact h.steady hset (steady_replaceFile.ok hrun)
    · obtain ⟨e, hfail⟩ := @writeFile_other v path name data attrs dino ino' kind hdir hentry hkind
      rw [hfail] at hrun
      cases hrun

theorem Refines.notWritten (h : Refines L₀ D v₀ s v) (hdir : v.parentDir path = .ok (dino, name))
    (hsize : divCeil data.length v.sb.blockSize < 2 ^ 32) (hadm : s.Admits D (.notWritten dino name))
    (hrun : writeFile path data attrs v = .error e v') : Refines L₀ D v₀ (s.after (.notWritten dino name)) v' := by
  obtain ⟨hD, hfile⟩ := hadm dino name rfl
  have hentry := h.entry hdir hD
  cases hname : s.names dino name with
  | none =>
    rw [hname] at hentry
    rw [writeFile_absent hdir hentry] at hrun
    simp only [FileStore.after, hname]
    exact h.steady ((h.files.create hsize).error hrun) ((createFile_names hdir).1 e hrun)
  | some found =>
    obtain ⟨ino', kind⟩ := found
    rw [hname] at hentry
    by_cases hkind : kind = .file
    · subst hkind
      obtain ⟨f, hf⟩ := hfile ino' .file hname
      rw [writeFile_present hdir hentry] at hrun
      simp only [FileStore.after, hname]
      exact h.steady ((h.files.replace hf hsize).error hrun) (steady_replaceFile.error hrun)
    · obtain ⟨e', hfail⟩ := @writeFile_other v path name data attrs dino ino' kind hdir hentry hkind
      obtain ⟨-, rfl⟩ := EStateM.Result.error.inj (hfail.symm.trans hrun)
      have hstays : s.after (.notWritten dino name) = s := by
        cases kind with
        | file => exact absurd rfl hkind
        | _ => simp only [FileStore.after, hname]
      rw [hstays]
      exact h

theorem Refines.unlinked (h : Refines L₀ D v₀ s v) (hdir : v.parentDir path = .ok (dino, name))
    (hadm : s.Admits D (.unlinked dino name)) (hrun : Volume.unlink path v = .ok () v') :
    Refines L₀ D v₀ (s.after (.unlinked dino name)) v' ∧ Outcome L₀.inodes s v v' (.unlinked dino name) := by
  obtain ⟨hD, hfile⟩ := hadm dino name rfl
  have hentry := h.entry hdir hD
  cases hname : s.names dino name with
  | none =>
    rw [hname] at hentry
    obtain ⟨e, hfail⟩ := unlink_absent hdir hentry
    rw [hfail] at hrun
    cases hrun
  | some found =>
    obtain ⟨ino, kind⟩ := found
    rw [hname] at hentry
    obtain ⟨f, hf⟩ := hfile ino kind hname
    obtain ⟨hless, hback⟩ := (h.files.unlink hdir hentry hf).ok hrun
    obtain ⟨u, hsame, hchange⟩ := (unlink_names hdir).2 hrun
    refine ⟨?_, ino, kind, f, hname, hf, hback⟩
    simp only [FileStore.after, hname, hf]
    exact h.renamed hless hsame hchange hD fun hl hf => hl.removed hf hchange

theorem Refines.notUnlinked (h : Refines L₀ D v₀ s v) (hdir : v.parentDir path = .ok (dino, name))
    (hadm : s.Admits D (.notUnlinked dino name)) (hrun : Volume.unlink path v = .error e v') :
    Refines L₀ D v₀ (s.after (.notUnlinked dino name)) v' := by
  obtain ⟨hD, hfile⟩ := hadm dino name rfl
  have hentry := h.entry hdir hD
  cases hname : s.names dino name with
  | none =>
    rw [hname] at hentry
    obtain ⟨e', hfail⟩ := unlink_absent hdir hentry
    obtain ⟨-, rfl⟩ := EStateM.Result.error.inj (hfail.symm.trans hrun)
    simp only [FileStore.after, hname]
    exact h
  | some found =>
    obtain ⟨ino, kind⟩ := found
    rw [hname] at hentry
    obtain ⟨f, hf⟩ := hfile ino kind hname
    simp only [FileStore.after, hname]
    exact h.steady ((h.files.unlink hdir hentry hf).error hrun) ((unlink_names hdir).1 e hrun)

/-- Whatever happens, the volume still has the names and the files of the store. -/
theorem Refines.step {e : Event} (h : Refines L₀ D v₀ s v) (hadm : s.Admits D e) (hhap : Happens e v v') :
    Refines L₀ D v₀ (s.after e) v' ∧ Outcome L₀.inodes s v v' e := by
  cases hhap with
  | wrote hdir hsize hrun => exact h.wrote hdir hsize hadm hrun
  | notWritten hdir hsize hrun => exact ⟨h.notWritten hdir hsize hadm hrun, trivial⟩
  | unlinked hdir hrun => exact h.unlinked hdir hadm hrun
  | notUnlinked hdir hrun => exact ⟨h.notUnlinked hdir hadm hrun, trivial⟩
  | strayWrite hdir =>
    rw [writeFile_astray hdir]
    exact ⟨h, trivial⟩
  | strayUnlink hdir =>
    rw [unlink_astray hdir]
    exact ⟨h, trivial⟩

/-- So it does through a run of them. -/
theorem Refines.run {p q : Volume × FileStore} (h : Refines L₀ D v₀ p.2 p.1)
    (hrun : Relation.ReflTransGen (FileStep D) p q) : Refines L₀ D v₀ q.2 q.1 := by
  induction hrun with
  | refl => exact h
  | tail _ hstep ih =>
    obtain ⟨e, hhap, hadm, hafter⟩ := hstep
    rw [hafter]
    exact (ih.step hadm hhap).1

/-- Whatever is done to the files of a volume, in any order and with any failure of the device, it has
the names and the files of the store that follows: what a name refers to, how many names a file has, and
its data.  What the ledger had besides is as it was, and what goes with the next event is free again. -/
theorem files_kept {names : Nat → Bytes → Option (Nat × FileType)} {own : Nat → Option Located} {s' : FileStore}
    (h : HoldsFiles L₀ own v) (hnames : ∀ dino ∈ D, Refers L₀ v dino (names dino))
    (hrun : Relation.ReflTransGen (FileStep D) (v, ⟨names, stored own⟩) (v', s')) :
    (∀ dino ∈ D, ∀ name, name ≠ DOT → name ≠ DOTDOT → v'.entry dino name = .ok (s'.names dino name)) ∧
      (∀ ino f, s'.files ino = some f → v'.ReadsFile ino f.data ∧ ∀ i, v'.inode ino = .ok i → i.nlink = f.links) ∧
      Device.SameOn (L₀.Names v.sb) v.dev v'.dev ∧
      (∀ ino links data runs tree, FileAt v.sb v.dev ino links data runs tree → fileLedger ino runs tree ≤ L₀ →
        v'.ReadsFile ino data) ∧
      ∀ e v'', s'.Admits D e → Happens e v' v'' → Outcome L₀.inodes s' v' v'' e := by
  have hstart : Refines L₀ D v ⟨names, stored own⟩ v := ⟨⟨⟨own, h, rfl⟩, rfl, .refl _ _⟩, hnames⟩
  have hend : Refines L₀ D v s' v' := hstart.run hrun
  obtain ⟨own', hfiles, hstored⟩ := hend.files.held
  refine ⟨fun dino hD name hdot hdots => (hend.names dino hD).entry hend.fitting.addressable.sound hdot hdots,
    fun ino f hino => ?_, hend.files.dev, fun ino links data runs tree hfile hle => ?_,
    fun e v'' hadm hhap => (hend.step hadm hhap).2⟩
  · obtain ⟨g, hg, rfl⟩ := Option.map_eq_some_iff.mp ((congrFun hstored ino).trans hino)
    exact ⟨(hfiles.files ino g hg).reads hfiles.opened, fun i => (hfiles.files ino g hg).nlink_eq hend.fitting⟩
  · have hkept := hfile.sameOn h.fitting hend.files.dev fun p hp => hp.mono hle
    rw [← hend.files.sb] at hkept
    exact hkept.reads hfiles.opened

end

/-! ## On a small volume -/

/-- The one group after some allocating: its free runs and the free inodes of its chunk. -/
def smallAg (free : List (Nat × Nat)) (total inodes : Nat) : Ag :=
  { usedAg 1 with free := .ofList free, freeTotal := total, chunks := .ofList [(64, ⟨0, 64, inodes⟩)] }

section
variable {v v' : Volume} {ag ag' ag'' : Ag} {b c : Nat} {data path : Bytes} {i : Inode}

/-- Where a block of the one group is. -/
theorem place_one (hb : b < 64) : (linkSb 1 6).agbToFsb 0 b = b ∧ (linkSb 1 6).fsbToAgb b = (0, b) ∧
    (linkSb 1 6).fsbToByte b = .ok (b * 512) := by
  have hfsb : (linkSb 1 6).agbToFsb 0 b = 0 * 2 ^ 6 + b :=
    Superblock.packed_eq (numbers_one.sound.agblkLog_le.trans (by norm_num)) (by norm_num) hb
  have hagb : (linkSb 1 6).fsbToAgb (0 * 2 ^ 6 + b) = (0, b) :=
    Superblock.unpacked_eq (numbers_one.sound.agblkLog_le.trans (by norm_num)) (by norm_num) hb
  rw [Nat.zero_mul, Nat.zero_add] at hfsb hagb
  refine ⟨hfsb, hagb, ?_⟩
  unfold Superblock.fsbToByte
  change (if 1 ≤ b / 2 ^ 6 ∨ 64 ≤ b % 2 ^ 6 then _ else Except.ok (((b / 2 ^ 6 * 64 + b % 2 ^ 6) <<< 9) % 2 ^ 64)) = _
  rw [Nat.div_eq_of_lt (by norm_num; exact hb), Nat.mod_eq_of_lt (by norm_num; exact hb), if_neg (by omega),
    Nat.shiftLeft_eq]
  congr 1
  omega

theorem hasRmapbt_one : (linkSb 1 6).hasRmapbt = false := by
  change hasBit 0 Superblock.RMAPBT = false
  decide

/-- Two blocks are asked for, and the group gives them in one run. -/
theorem Making.askedFor (h : Making 1 6 ag v) (halloc : alloc 2 32 ag = .ok (some (b, 2)) ag') (hb : b + 2 ≤ 64)
    (hn : divCeil data.length 512 = 2) :
    ∃ v', askedFor v 65 data = .ok [(b, 2)] v' ∧ Making 1 6 ag' v' := by
  obtain ⟨hrun, hmake⟩ := h.onAg halloc
  have horder : agOrder v.sb 0 = .ok [0] := by
    rw [h.sb_eq]
    rfl
  have hsb : (v.putAg 0 ag').sb = linkSb 1 6 := hmake.sb_eq
  refine ⟨_, ?_, hmake⟩
  unfold Volume.askedFor
  rw [h.sb_eq]
  change allocBlocks 0 (divCeil data.length 512) 32 v = _
  rw [hn]
  unfold allocBlocks
  simp only [get_bind_apply]
  rw [bind_of_ok (liftE_eq_ok.mpr ⟨horder, rfl⟩)]
  have hfrom : allocFrom 0 32 2 2 v = .ok ([(b, 2)], 0) (v.putAg 0 ag') := by
    unfold allocFrom
    rw [bind_of_ok (show Volume.onAg 0 (alloc (min (1 + 1) MAX_EXTENT) 32) v = _ from hrun)]
    simp only [get_bind_apply]
    rw [hsb, (place_one (by omega)).1]
    rfl
  have hacross : allocAcross 0 32 [0] 2 v = .ok ([(b, 2)], 0) (v.putAg 0 ag') := by
    unfold allocAcross
    rw [if_neg (by decide), bind_of_ok (loadAg_of_loaded h.ag_eq), if_pos rfl, bind_of_ok hfrom]
    rfl
  rw [bind_of_ok hacross]
  rfl

/-- Data of two blocks are stored in them. -/
theorem Making.storeData (h : Making 1 6 ag v) (halloc : alloc 2 32 ag = .ok (some (b, 2)) ag')
    (hb : b + 2 ≤ 64) (hn : divCeil data.length 512 = 2) :
    ∃ v', storeData 65 80 data v = .ok (.extents, packExtents [⟨0, b, 2, false⟩], 2, 1) v' ∧
      Making 1 6 ag' v' := by
  obtain ⟨v1, hasked, hmake1⟩ := h.askedFor halloc hb hn
  obtain ⟨-, hagb, hbyte⟩ := place_one (b := b) (by omega)
  have hrmap : rmapAdd v1.sb b 2 65 0 ag' = .ok () ag' := by
    unfold rmapAdd
    rw [hmake1.sb_eq, hasRmapbt_one]
    rfl
  obtain ⟨hrec, hmake2⟩ := hmake1.onAg hrmap
  have hrecord : recordRuns 65 0 [(b, 2)] v1 = .ok [⟨0, b, 2, false⟩] (v1.putAg 0 ag') := by
    have hone : rmapExtent b 2 65 0 v1 = .ok () (v1.putAg 0 ag') := by
      unfold rmapExtent
      simp only [get_bind_apply]
      rw [hmake1.sb_eq, hagb, ← hmake1.sb_eq]
      exact hrec
    unfold recordRuns
    rw [bind_of_ok hone]
    rfl
  -- one extent, and one piece of it
  have hlen : data.length ≤ 1024 ∧ 512 < data.length := by
    unfold divCeil at hn
    omega
  obtain ⟨dev, -, hmake3, hpiece⟩ := @Making.writeAt 1 6 _ ag' hmake2 (b * 512)
    (slice data 0 (min (data.length - 0) 1024) ++ List.replicate (1024 - min (data.length - 0) 1024) 0)
    (by rw [List.length_append, length_slice (by omega), List.length_replicate]; omega)
  have hpieces : writePieces data 1024 1025 0 (b * 512) (v1.putAg 0 ag').dev = .ok () dev := by
    have hall : min (1024 - 0) WRITE_CHUNK = 1024 := by decide
    unfold writePieces
    rw [if_pos (by decide)]
    simp only [hall]
    rw [act_throwIf_bind_of_not (by omega), bind_of_ok hpiece]
    unfold writePieces
    rw [if_neg (by decide)]
    rfl
  have hmapped : writeMapped data [⟨0, b, 2, false⟩] (v1.putAg 0 ag') =
      (Volume.onDev (writePieces data 1024 1025 0 (b * 512)) >>= fun _ => pure ()) (v1.putAg 0 ag') := by
    unfold writeMapped
    simp only [get_bind_apply]
    rw [bind_of_ok (liftE_eq_ok.mpr ⟨hmake2.sb_eq ▸ hbyte, rfl⟩), hmake2.sb_eq]
    change (Volume.onDev (writePieces data (min (2 * 512) (divCeil data.length 512 * 512))
      (min (2 * 512) (divCeil data.length 512 * 512) - 0 + 1) 0 (b * 512)) >>= _) _ = _
    rw [hn]
    rfl
  have hwrite : writeMapped data [⟨0, b, 2, false⟩] (v1.putAg 0 ag') = .ok () { v1.putAg 0 ag' with dev := dev } :=
    hmapped.trans (bind_of_ok (onDev_eq_ok.mpr ⟨dev, hpieces, rfl⟩))
  refine ⟨_, (storeData_ok_iff ?_).mpr ⟨_, v1, _, _, _, .extents, packExtents [⟨0, b, 2, false⟩], 0, hasked, hrecord, hwrite, rfl,
    ?_⟩, hmake3⟩
  · rw [h.sb_eq]
    change 0 < divCeil data.length 512
    omega
  · rw [h.sb_eq]
    change _ = (_, _, divCeil data.length 512 + 0, 1)
    rw [hn]

/-- Two blocks are given back. -/
theorem Making.freeFork (h : Making 1 6 ag v) (hfree : freeExtent b 2 ag = .ok () ag') (hb : b + 2 ≤ 64)
    (hmap : v.forkMap i false = .ok ([⟨0, b, 2, false⟩], [])) :
    ∃ v', freeFork i false v = .ok 2 v' ∧ Making 1 6 ag' v' ∧ v'.dev = v.dev := by
  obtain ⟨hrun, hmake1⟩ := h.onAg hfree
  have hrmap : rmapRemove (linkSb 1 6) b 2 i.ino ag' = .ok () ag' := by
    unfold rmapRemove
    rw [hasRmapbt_one]
    rfl
  obtain ⟨hrun', hmake2⟩ := hmake1.onAg hrmap
  have hrelease : release b 2 i.ino v = .ok () ((v.putAg 0 ag').putAg 0 ag') := by
    unfold release
    simp only [get_bind_apply]
    rw [h.sb_eq, (place_one (b := b) (by omega)).2.1]
    simp only
    rw [bind_of_ok (loadAg_of_loaded h.ag_eq), bind_of_ok hrun]
    exact hrun'
  refine ⟨_, ?_, hmake2, rfl⟩
  unfold Volume.freeFork
  simp only [get_bind_apply]
  rw [bind_of_ok (liftE_eq_ok.mpr ⟨hmap, rfl⟩)]
  have hall : releaseAll i.ino (extentRuns [⟨0, b, 2, false⟩]) v = .ok () ((v.putAg 0 ag').putAg 0 ag') := by
    change (release b 2 i.ino >>= fun _ => pure ()) v = _
    rw [bind_of_ok hrelease]
    rfl
  rw [bind_of_ok hall]
  rfl

end

theorem fitting_one : (linkSb 1 6).Fitting where
  addressable := ⟨numbers_one.sound, by decide, by decide, by decide⟩
  isV5 := rfl
  inodes_le := by decide
  fsb_le := by decide
  align := Or.inl (by decide)
  agino_lt := by decide

theorem nodeAt_one : NodeAt (linkSb 1 6) 65 0 32 1 where
  ag := by decide
  block := by decide
  index := by decide
  number := by rw [fitting_one.addressable.aginoToIno_eq (by decide) (by decide)]; rfl

section
variable {v v' : Volume} {ag ag' ag'' : Ag} {b c : Nat} {data path name : Bytes} {i : Inode} {raw raw' : Bytes}

/-- Inode 65 is a file in the two blocks from `b` on. -/
structure InTwo (ag : Ag) (b : Nat) (v : Volume) : Prop where
  making : Making 1 6 ag v
  slot : ∃ raw m size n, SlotAt v.dev (linkSb 1 6) 65 (Crc.stamp raw INODE_CRC) ∧
    Raw.SaysFile (linkSb 1 6) 65 m 0 .extents size 1 n 1 (packExtents [⟨0, b, 2, false⟩]) raw

/-- It is written last. -/
theorem Making.inTwo {m size n : Nat} (h : Making 1 6 ag v)
    (htells : Raw.SaysFile (linkSb 1 6) 65 m 0 .extents size 1 n 1 (packExtents [⟨0, b, 2, false⟩]) raw) :
    ∃ v', Volume.writeRaw 65 raw v = .ok () v' ∧ InTwo ag b v' := by
  obtain ⟨v', hrun, hmake⟩ := h.writeRaw numbers_one htells.laid.whole.length_eq
  have hfit : v.sb.Fitting := h.sb_eq ▸ fitting_one
  obtain ⟨d, rfl, -, hslot⟩ := (writeRaw_slot hfit (h.sb_eq ▸ nodeAt_one)
    (h.sb_eq ▸ htells.laid.whole.length_eq)).ok hrun
  exact ⟨_, hrun, hmake, raw, m, size, n, h.sb_eq ▸ hslot, htells⟩

/-- What is read of it. -/
theorem InTwo.inode (h : InTwo ag b v) (hb : b + 2 ≤ 64) : ∃ i raw m size n, v.inode 65 = .ok i ∧
    v.readRaw 65 = .ok (Crc.stamp raw INODE_CRC) ∧
    Raw.SaysFile (linkSb 1 6) 65 m 0 .extents size 1 n 1 (packExtents [⟨0, b, 2, false⟩]) raw ∧
    i.ino = 65 ∧ i.flags2 = 0 ∧ i.isRealtime = false ∧ i.nlink = 1 ∧ i.aformat = none ∧
    ∀ d, Bmap.forkMap d (linkSb 1 6) i false = .ok ([⟨0, b, 2, false⟩], []) := by
  obtain ⟨raw, m, size, n, hslot, htells⟩ := h.slot
  have hs := numbers_one.sound
  have hwhole := htells.laid.whole.stamp hs
  obtain ⟨i, hparse, hino, -, hformat, -, hnext, -, hrt, haf, -, pad, hfork⟩ := htells.parse hs rfl
  have hslot' : SlotAt v.dev v.sb 65 (Crc.stamp raw INODE_CRC) := h.making.sb_eq ▸ hslot
  have hlen : INODE_CRC + 4 ≤ raw.length := by
    rw [htells.laid.whole.length_eq]
    decide
  refine ⟨i, raw, m, size, n, ?_, ?_, htells, hino, ?_, hrt, ?_, haf, fun d => ?_⟩
  · rw [hslot'.inode_eq (h.making.sb_eq ▸ hs), h.making.sb_eq]
    exact hparse
  · exact hslot'.readRaw_eq (h.making.sb_eq ▸ hs) hwhole.magic (Crc.verify_stamp hlen) hwhole.number
  · obtain ⟨_, -, rfl⟩ := hwhole.of_parse rfl hparse
    rfl
  · obtain ⟨_, -, rfl⟩ := hwhole.of_parse rfl hparse
    exact (Crc.getBe_stamp_disjoint hlen (by decide)).trans htells.links_eq
  · refine forkMap_inline (fun e he => ?_) (List.pairwise_singleton _ _) (by norm_num) hformat hnext hfork
    obtain rfl := List.mem_singleton.mp he
    exact ⟨by norm_num, by change b < 2 ^ 52; omega, by norm_num, by norm_num⟩

theorem alloc_used : alloc 2 32 (usedAg 1) = .ok (some (8, 2)) (smallAg [(10, 22)] 22 (2 ^ 64 - 4)) := rfl

/-- A file of two blocks is created. -/
theorem createFile_one (hn : divCeil data.length 512 = 2) :
    ∃ v', createFile [47, 108] data .default (linkVolume 1 6) = .ok 65 v' ∧
      InTwo (smallAg [(10, 22)] 22 (2 ^ 64 - 4)) 8 v' := by
  have hs := numbers_one.sound
  have hlen : data.length < 2 ^ 64 := by
    unfold divCeil at hn
    omega
  obtain ⟨raw, v1, hcreate, hmake1, -, gen, t, hraw⟩ :=
    @createNode_link 1 6 numbers_one (Mode.IFREG ||| Attrs.default.perms)
  rw [show newIno 1 6 = 65 from rfl] at hcreate hraw
  have hwhole := hraw ▸ @Raw.whole_freshRaw (linkSb 1 6) 65
    (Mode.IFREG ||| Attrs.default.perms) 0 0 1 gen t hs (by decide) (by decide)
  obtain ⟨v2, hstore, hmake2⟩ := hmake1.storeData alloc_used (by norm_num) hn
  obtain ⟨raw', hset⟩ : ∃ raw', Raw.setDataFork raw .extents (packExtents [⟨0, 8, 2, false⟩]) = .ok raw' := by
    unfold Raw.setDataFork
    rw [dataForkSize_link hwhole, except_throwIf_bind_of_not (by decide)]
    exact ⟨_, rfl⟩
  have htells : Raw.SaysFile (linkSb 1 6) 65 _ _ .extents data.length 1 2 1 _ _ :=
    Raw.saysFile_of_setDataFork hs hwhole (hraw ▸ Raw.flags_freshRaw hs)
      (hraw ▸ Raw.links_freshRaw hs (by norm_num)) (by norm_num) hlen (by norm_num) hset
  obtain ⟨v3, hwrite, htwo⟩ := hmake2.inTwo htells
  obtain ⟨v4, hname, hmake4, hdev⟩ := htwo.making.changeNames (f := fun names =>
    names.insert [108] (65, FileType.file.code))
  have hname : addName (linkSb 1 6).rootIno [108] 65 .file v3 = .ok () v4 := hname
  refine ⟨v4, ?_, hmake4, ?_⟩
  · unfold createFile
    change (createNode [47, 108] (Mode.IFREG ||| Attrs.default.perms) 0 0 1 >>= _) (linkVolume 1 6) = _
    rw [bind_of_ok hcreate]
    simp only
    rw [dataForkSize_link hwhole, bind_of_ok (recover_eq_ok.mpr (Or.inl hstore))]
    simp only
    rw [bind_of_ok (liftE_eq_ok.mpr ⟨hset, rfl⟩), bind_of_ok hwrite, bind_of_ok hname]
    rfl
  · rw [hdev]
    exact htwo.slot

/-- It is written over in two others. -/
theorem InTwo.replaceFile (h : InTwo ag b v) (hb : b + 2 ≤ 64) (halloc : alloc 2 32 ag = .ok (some (c, 2)) ag')
    (hc : c + 2 ≤ 64) (hfree : freeExtent b 2 ag' = .ok () ag'') (hn : divCeil data.length 512 = 2) :
    ∃ v', replaceFile path 65 data none v = .ok 65 v' ∧ InTwo ag'' c v' := by
  have hs := numbers_one.sound
  have hlen : data.length < 2 ^ 64 := by
    unfold divCeil at hn
    omega
  obtain ⟨i, raw, m, size, n, hinode, hread, htells, -, hflags, hrt, -, -, hmap⟩ := h.inode hb
  have hwhole := htells.laid.whole.stamp hs
  have hcrc : INODE_CRC + 4 ≤ raw.length := by
    rw [htells.laid.whole.length_eq]
    decide
  obtain ⟨w, hw, -⟩ := h.making.root
  obtain ⟨v1, hstore, hmake1⟩ := h.making.storeData halloc hc hn
  have hmap1 : v1.forkMap i false = .ok ([⟨0, b, 2, false⟩], []) := by
    unfold forkMap
    rw [hmake1.sb_eq]
    exact hmap v1.dev
  obtain ⟨v2, hfreed, hmake2, -⟩ := hmake1.freeFork hfree hb hmap1
  obtain ⟨raw1, hset⟩ : ∃ raw1, Raw.setDataFork (Crc.stamp raw INODE_CRC) .extents
      (packExtents [⟨0, c, 2, false⟩]) = .ok raw1 := by
    unfold Raw.setDataFork
    rw [dataForkSize_link hwhole, except_throwIf_bind_of_not (by rw [length_packExtents]; simp)]
    exact ⟨_, rfl⟩
  have hcount : Raw.nblocks (Raw.setNextents (Raw.setSize raw1 data.length) 1) - 2 + 2 < 2 ^ 64 := by
    have hlt := getBe_lt 8 (Raw.setNextents (Raw.setSize raw1 data.length) 1) 64
    unfold Raw.nblocks be64
    omega
  have hsaid := Raw.saysFile_of_setDataFork hs hwhole
    ((Crc.getBe_stamp_disjoint hcrc (by decide)).trans htells.flags_eq)
    ((Crc.getBe_stamp_disjoint hcrc (by decide)).trans htells.links_eq) (by norm_num : 1 < 2 ^ 32) hlen hcount hset
  obtain ⟨raw2, htouch⟩ : ∃ raw2, Raw.touch (Raw.setNblocks (Raw.setNextents (Raw.setSize raw1 data.length) 1)
      (Raw.nblocks (Raw.setNextents (Raw.setSize raw1 data.length) 1) - 2 + 2)) ⟨0, 0⟩ true = .ok raw2 := by
    have hword : ∀ big, ∃ word, tsRaw ⟨0, 0⟩ big = .ok word := fun big => by
      cases big <;> exact ⟨_, rfl⟩
    obtain ⟨word, hword⟩ := hword (Raw.bigtime (Raw.setNblocks (Raw.setNextents (Raw.setSize raw1 data.length) 1)
      (Raw.nblocks (Raw.setNextents (Raw.setSize raw1 data.length) 1) - 2 + 2)))
    unfold Raw.touch
    rw [hword, except_ok_bind]
    exact ⟨_, rfl⟩
  obtain ⟨v3, hwrite, htwo⟩ := hmake2.inTwo (hsaid.touch hs htouch)
  refine ⟨v3, ?_, htwo⟩
  unfold Volume.replaceFile
  rw [bind_of_ok (writer_of_isSome (Option.isSome_of_eq_some hw))]
  simp only [get_bind_apply]
  rw [bind_of_ok (liftE_eq_ok.mpr ⟨hinode, rfl⟩), act_throwIf_bind_of_not (by rw [hflags]; decide),
    act_throwIf_bind_of_not (by rw [hrt]; decide), bind_of_ok (liftE_eq_ok.mpr ⟨hread, rfl⟩),
    dataForkSize_link hwhole, bind_of_ok hstore]
  simp only
  rw [bind_of_ok hfreed, bind_of_ok (liftE_eq_ok.mpr ⟨hset, rfl⟩), bind_of_ok hmake2.now, bind_of_ok (liftE_eq_ok.mpr ⟨htouch, rfl⟩), bind_of_ok hwrite]
  rfl

/-- Its name is removed, and it goes. -/
theorem InTwo.unlink (h : InTwo ag b v) (hb : b + 2 ≤ 64) (hfree : freeExtent b 2 ag = .ok () ag')
    (hnode : freeInode 65 ag' = .ok () ag'') (hdir : v.parentDir path = .ok (64, name))
    (hentry : v.entry 64 name = .ok (some (65, .file))) : ∃ v', unlink path v = .ok () v' := by
  have hs := numbers_one.sound
  obtain ⟨i, raw, m, size, n, hinode, hread, htells, hino, hflags, hrt, hlinks, haf, hmap⟩ := h.inode hb
  obtain ⟨w, hw, -⟩ := h.making.root
  have hmap' : v.forkMap i false = .ok ([⟨0, b, 2, false⟩], []) := by
    unfold forkMap
    rw [h.making.sb_eq]
    exact hmap v.dev
  obtain ⟨v1, hfreed, hmake1, hdev1⟩ := h.making.freeFork hfree hb hmap'
  have hread1 : v1.readRaw 65 = .ok (Crc.stamp raw INODE_CRC) := by
    unfold readRaw at hread ⊢
    rwa [hdev1, hmake1.sb_eq, ← h.making.sb_eq]
  have hlen : (destroyedRaw v1.sb 65 (Crc.stamp raw INODE_CRC)).length = 256 := by
    rw [hmake1.sb_eq]
    exact length_destroyedRaw hs (htells.laid.whole.stamp hs).length_eq
  obtain ⟨v2, hwrite, hmake2⟩ := hmake1.writeRaw numbers_one hlen
  rw [show newIno 1 6 = 65 from rfl] at hwrite
  obtain ⟨hgone, hmake3⟩ := hmake2.onAg hnode
  obtain ⟨v4, hname, -⟩ := hmake3.changeNames (f := fun names => names.erase name)
  have hdestroy : destroy i v = .ok () (v2.putAg 0 ag'') := by
    unfold destroy
    rw [act_throwIf_bind_of_not (by rw [hflags]; decide), act_throwIf_bind_of_not (by rw [hrt]; decide),
      bind_of_ok hfreed, haf, hino]
    simp only [Option.isSome_none, Bool.false_eq_true, if_false, get_bind_apply]
    rw [bind_of_ok (liftE_eq_ok.mpr ⟨hread1, rfl⟩), bind_of_ok hwrite, hmake1.sb_eq]
    change (loadAg 0 >>= fun _ => Volume.onAg 0 (freeInode 65)) v2 = _
    rw [bind_of_ok (loadAg_of_loaded hmake2.ag_eq)]
    exact hgone
  refine ⟨v4, ?_⟩
  unfold Volume.unlink
  simp only [get_bind_apply]
  rw [bind_of_ok (liftE_eq_ok.mpr ⟨hdir, rfl⟩)]
  simp only
  rw [bind_of_ok (liftE_eq_ok.mpr ⟨hentry, rfl⟩)]
  simp only
  have hdrop : dropLink 65 v = .ok () (v2.putAg 0 ag'') := by
    unfold dropLink
    simp only [get_bind_apply]
    rw [bind_of_ok (liftE_eq_ok.mpr ⟨hinode, rfl⟩), if_pos hlinks.le]
    exact hdestroy
  rw [act_throwIf_bind_of_not (by decide), bind_of_ok (writer_of_isSome (Option.isSome_of_eq_some hw)),
    bind_of_ok hdrop]
  exact hname
end

/-- The root directory's inode is all that the small volume's ledger has. -/
def rootLedger : Ledger := ⟨∅, {64}⟩

theorem opened_one : (linkVolume 1 6).Opened where
  sound := numbers_one.sound
  agCount_lt := by decide
  fits := (ready_link numbers_one).fits
  size_lt := (ready_link numbers_one).size_lt

set_option maxRecDepth 100000 in
theorem minds_one : (linkVolume 1 6).Minds rootLedger := by
  intro k hk ag hag
  have hk : k < 1 := hk
  obtain rfl : k = 0 := by omega
  rcases hag with hag | ⟨hnone, -⟩
  · rw [ag?_link hk] at hag
    obtain rfl := Option.some.inj hag
    have hentry : ∀ e ∈ (linkAg 1 0).chunks.entries, e = (64, ⟨0, 64, 2 ^ 64 - 2⟩) := fun e he =>
      List.mem_singleton.mp he
    refine
      { kept := ⟨spaceOk_link, by decide, by decide, ⟨fun e he => ?_, fun a ha b hb hlt => ?_⟩, ?_⟩
        agLen := (groupOk_link hk).agLen
        blocks := fun b hb hL => hL.elim
        nodes := fun i hi => ⟨(clear_link hi).1, fun hL => hL.elim⟩ }
    · obtain rfl := hentry e he
      refine ⟨by decide, by decide, fun i _ hi => ?_, by decide, fun i hi _ => ?_⟩
      · exact absurd hi (by simp [Chunk.hole])
      · refine (@clear_link 1 6 0 (64 + i) ⟨_, he, ⟨Nat.le_add_right _ _, Nat.add_lt_add_left hi _⟩, ?_⟩).2
        simp [Chunk.hole]
    · obtain rfl := hentry a ha
      obtain rfl := hentry b hb
      exact absurd hlt (Nat.lt_irrefl _)
    · rintro i ⟨hi, hino⟩
      have hnum : (linkSb 1 6).aginoToIno 0 i = i := by
        rw [fitting_one.addressable.aginoToIno_eq hk hi, Nat.zero_mul, Nat.zero_add]
      obtain rfl : i = 64 := hnum.symm.trans hino
      exact ⟨(64, ⟨0, 64, 2 ^ 64 - 2⟩), List.mem_singleton.mpr rfl, ⟨by decide, by decide⟩, by decide,
        by decide⟩
  · rw [ag?_link hk] at hnone
    cases hnone

theorem holdsFiles_one : HoldsFiles rootLedger (fun _ => none) (linkVolume 1 6) where
  fitting := fitting_one
  opened := opened_one
  minds := whole_none.symm ▸ minds_one
  files ino f hf := by cases hf
  clear ino f hf := by cases hf
  new ino f hf := by cases hf
  apart ino ino' f f' hf := by cases hf

/-- The names of the root directory are in memory, and there are none. -/
theorem refers_one : Refers rootLedger (linkVolume 1 6) 64 fun _ => none := by
  obtain ⟨i, hinode, hino, hdir⟩ := inode_root numbers_one
  have hat : (linkSb 1 6).inoToByte 64 = .ok (32 * 512) :=
    inoToByte_link numbers_one (by norm_num : 0 < 64) (by norm_num)
  have hsize : (linkVolume 1 6).dev.size = 64 * 512 := size_link numbers_one
  have hslot : SlotAt (linkVolume 1 6).dev (linkSb 1 6) 64 (slice (linkVolume 1 6).dev.data (32 * 512) 256) :=
    ⟨⟨32 * 512, hat, by rw [hsize]; decide, rfl⟩, length_slice (by
      rw [show (linkVolume 1 6).dev.data.length = 64 * 512 from hsize]
      norm_num)⟩
  refine ⟨rfl, ⟨0, 32, 0, by decide, by decide, by decide, ?_⟩, _, i, hslot,
    (hslot.inode_eq (v := linkVolume 1 6) numbers_one.sound).symm.trans hinode, hino, hdir, Or.inl ⟨_, @get?_dirs_link 1 6, ?_⟩⟩
  · change (linkSb 1 6).aginoToIno 0 64 = 64
    rw [fitting_one.addressable.aginoToIno_eq (by decide) (by decide)]
    rfl
  · exact fun _ _ _ => rfl

/-- Files go in the root directory. -/
theorem Refines.parentDir_one {v₀ v : Volume} {s : FileStore} (h : Refines rootLedger {64} v₀ s v)
    (hsb : v.sb = linkSb 1 6) : v.parentDir [47, 108] = .ok (64, [108]) := by
  obtain ⟨a, i, hslot, hparse, -, hdir, -⟩ := (h.names 64 rfl).dir
  have hroot : v.sb.rootIno = 64 := by
    rw [hsb]
    rfl
  have hinode : v.inode v.sb.rootIno = .ok i := by
    rw [hroot, hslot.inode_eq h.fitting.addressable.sound]
    exact hparse
  exact hroot ▸ parentDir_root hinode hdir

/-- What is written, and what is written over it, of two blocks each. -/
def smallData (x : UInt8) : Bytes := List.replicate 700 x

theorem divCeil_smallData {x : UInt8} : divCeil (smallData x).length 512 = 2 := by
  unfold smallData
  rw [List.length_replicate]
  decide

/-- What the file gives back has its first block. -/
theorem InTwo.gaveBack {ag : Ag} {b : Nat} {v v' : Volume} (h : InTwo ag b v) (hb : b + 2 ≤ 64)
    (hback : GaveBack v v' 65) : v'.BlockFree b := by
  obtain ⟨i, _, _, _, _, hinode, -, -, -, -, -, -, -, hmap⟩ := h.inode hb
  have hmap' : v.forkMap i false = .ok ([⟨0, b, 2, false⟩], []) := by
    unfold forkMap
    rw [h.making.sb_eq]
    exact hmap v.dev
  exact hback i _ _ hinode hmap' b ⟨(b, 2), List.mem_singleton.mpr rfl, Nat.le_refl _, by simp⟩

section
variable {v : Volume} {s : FileStore} {ag ag' ag'' : Ag} {b c : Nat} {e : Event} {x y : UInt8}

/-- The file is in the store and in its two blocks. -/
structure Holding (s : FileStore) (ag : Ag) (b : Nat) (x : UInt8) (v : Volume) : Prop where
  refines : Refines rootLedger {64} (linkVolume 1 6) s v
  inTwo : InTwo ag b v
  name : s.names 64 [108] = some (65, .file)
  file : s.files 65 = some ⟨1, smallData x⟩

theorem size_smallData (h : v.sb = linkSb 1 6) : divCeil (smallData x).length v.sb.blockSize < 2 ^ 32 := by
  rw [h]
  exact divCeil_smallData.trans_lt (by norm_num)

theorem admits_one (he : e.place = some (64, [108]))
    (h : ∀ ino kind, s.names 64 [108] = some (ino, kind) → ∃ f, s.files ino = some f) : s.Admits {64} e := by
  intro dino name hat
  obtain ⟨rfl, rfl⟩ := Prod.mk.inj (Option.some.inj (he.symm.trans hat))
  exact ⟨rfl, h⟩

theorem refines_one : Refines rootLedger {64} (linkVolume 1 6) ⟨fun _ _ => none, stored fun _ => none⟩
    (linkVolume 1 6) := by
  refine ⟨⟨⟨_, holdsFiles_one, rfl⟩, rfl, .refl _ _⟩, fun dino hdino => ?_⟩
  obtain rfl : dino = 64 := hdino
  exact refers_one

/-- It is written under a name that is not there. -/
theorem holding_one : ∃ v s, FileStep {64} (linkVolume 1 6, ⟨fun _ _ => none, stored fun _ => none⟩) (v, s) ∧
    Holding s (smallAg [(10, 22)] 22 (2 ^ 64 - 4)) 8 x v := by
  obtain ⟨v, hmade, htwo⟩ := @createFile_one (smallData x) divCeil_smallData
  have hdir := parentDir_link numbers_one
  have hentry := entry_link numbers_one
  have hrun : writeFile [47, 108] (smallData x) none (linkVolume 1 6) = .ok 65 v :=
    (writeFile_absent hdir hentry).trans hmade
  have hevent : Happens (.wrote 64 [108] (smallData x) 65) (linkVolume 1 6) v :=
    .wrote hdir (size_smallData rfl) hrun
  have hadmits := @admits_one ⟨fun _ _ => none, stored fun _ => none⟩ (.wrote 64 [108] (smallData x) 65) rfl
    fun _ _ hno => by cases hno
  exact ⟨v, _, ⟨_, hevent, hadmits, rfl⟩, (refines_one.step hadmits hevent).1, htwo, rfl, rfl⟩

/-- It is written over. -/
theorem Holding.wrote (h : Holding s ag b x v) (hb : b + 2 ≤ 64) (halloc : alloc 2 32 ag = .ok (some (c, 2)) ag')
    (hc : c + 2 ≤ 64) (hfree : freeExtent b 2 ag' = .ok () ag'') :
    ∃ v' s', FileStep {64} (v, s) (v', s') ∧ Holding s' ag'' c y v' ∧ v'.BlockFree b := by
  obtain ⟨v', hrep, htwo⟩ := @InTwo.replaceFile v ag ag' ag'' b c (smallData y) [47, 108] h.inTwo hb halloc hc hfree
    divCeil_smallData
  have hsb := h.inTwo.making.sb_eq
  have hdir := h.refines.parentDir_one hsb
  have hentry := (h.refines.entry hdir rfl).trans (congrArg Except.ok h.name)
  have hevent : Happens (.wrote 64 [108] (smallData y) 65) v v' :=
    .wrote hdir (size_smallData hsb) ((writeFile_present hdir hentry).trans hrep)
  have hadmits : s.Admits {64} (.wrote 64 [108] (smallData y) 65) := admits_one rfl fun ino kind hino => by
    obtain ⟨rfl, -⟩ := Prod.mk.inj (Option.some.inj (hino.symm.trans h.name))
    exact ⟨_, h.file⟩
  obtain ⟨hrefines, hout⟩ := h.refines.step hadmits hevent
  refine ⟨v', _, ⟨_, hevent, hadmits, rfl⟩, ⟨hrefines, htwo, ?_, ?_⟩, ?_⟩
  · simp only [h.name, FileStore.put]
  · simp only [h.name, FileStore.put, h.file, Option.map_some, Function.update_self]
  · rcases hout with ⟨hnone, -⟩ | ⟨-, hback⟩
    · rw [h.name] at hnone
      cases hnone
    · exact h.inTwo.gaveBack hb hback

/-- It is removed. -/
theorem Holding.unlinked (h : Holding s ag b x v) (hb : b + 2 ≤ 64) (hfree : freeExtent b 2 ag = .ok () ag')
    (hnode : freeInode 65 ag' = .ok () ag'') : ∃ v' s', FileStep {64} (v, s) (v', s') ∧
      s'.names 64 [108] = none ∧ v'.BlockFree b ∧ v'.NodeFree 65 ∧ ∀ data, ¬v'.ReadsFile 65 data := by
  have hsb := h.inTwo.making.sb_eq
  have hdir := h.refines.parentDir_one hsb
  have hentry := (h.refines.entry hdir rfl).trans (congrArg Except.ok h.name)
  obtain ⟨v', hrun⟩ := h.inTwo.unlink hb hfree hnode hdir hentry
  have hevent : Happens (.unlinked 64 [108]) v v' := .unlinked hdir hrun
  have hadmits : s.Admits {64} (.unlinked 64 [108]) := admits_one rfl fun ino kind hino => by
    obtain ⟨rfl, -⟩ := Prod.mk.inj (Option.some.inj (hino.symm.trans h.name))
    exact ⟨_, h.file⟩
  obtain ⟨-, ino, kind, f, hname, hfile, hout⟩ := h.refines.step hadmits hevent
  obtain ⟨rfl, -⟩ := Prod.mk.inj (Option.some.inj (hname.symm.trans h.name))
  obtain rfl := Option.some.inj (hfile.symm.trans h.file)
  obtain ⟨hback, hnodeFree, hgone⟩ := hout (Nat.le_refl _)
  refine ⟨v', _, ⟨_, hevent, hadmits, rfl⟩, ?_, h.inTwo.gaveBack hb hback, hnodeFree, hgone⟩
  simp only [h.name, FileStore.put, FileStore.enter, Function.update_self]

end

/-- A file is written, written over and removed, and all it had is free again. -/
theorem files_kept_one : ∃ (v₁ v₂ v₃ : Volume) (s₁ s₂ s₃ : FileStore),
    Relation.ReflTransGen (FileStep {64}) (linkVolume 1 6, ⟨fun _ _ => none, stored fun _ => none⟩) (v₁, s₁) ∧
    v₁.ReadsFile 65 (smallData 1) ∧
    Relation.ReflTransGen (FileStep {64}) (v₁, s₁) (v₂, s₂) ∧ v₂.ReadsFile 65 (smallData 2) ∧ v₂.BlockFree 8 ∧
    Relation.ReflTransGen (FileStep {64}) (v₂, s₂) (v₃, s₃) ∧ v₃.entry 64 [108] = .ok none ∧
    (∀ data, ¬v₃.ReadsFile 65 data) ∧ v₃.NodeFree 65 ∧ v₃.BlockFree 10 := by
  obtain ⟨v₁, s₁, hstep₁, h₁⟩ := @holding_one 1
  obtain ⟨v₂, s₂, hstep₂, h₂, hfree₂⟩ := @Holding.wrote v₁ s₁ _ (smallAg [(12, 20)] 20 (2 ^ 64 - 4))
    (smallAg [(8, 2), (12, 20)] 22 (2 ^ 64 - 4)) 8 10 1 2 h₁ (by norm_num) rfl (by norm_num) rfl
  obtain ⟨v₃, s₃, hstep₃, hname, hfree₃, hnode, hgone⟩ := @Holding.unlinked v₂ s₂ _
    (smallAg [(8, 24)] 24 (2 ^ 64 - 4)) (smallAg [(8, 24)] 24 (2 ^ 64 - 2)) 10 2 h₂ (by norm_num) rfl rfl
  have hrun₁ := Relation.ReflTransGen.single hstep₁
  have hrun₂ := hrun₁.tail hstep₂
  have hnames : ∀ dino ∈ ({64} : Set Nat), Refers rootLedger (linkVolume 1 6) dino fun _ => none :=
    refines_one.names
  obtain ⟨-, hfiles₁, -⟩ := files_kept holdsFiles_one hnames hrun₁
  obtain ⟨-, hfiles₂, -⟩ := files_kept holdsFiles_one hnames hrun₂
  obtain ⟨hentries₃, -⟩ := files_kept holdsFiles_one hnames (hrun₂.tail hstep₃)
  exact ⟨v₁, v₂, v₃, s₁, s₂, s₃, hrun₁, (hfiles₁ 65 _ h₁.file).1, .single hstep₂, (hfiles₂ 65 _ h₂.file).1, hfree₂,
    .single hstep₃, (hentries₃ 64 rfl [108] (by decide) (by decide)).trans (congrArg Except.ok hname), hgone, hnode,
    hfree₃⟩

end Volume

end FioXfs
