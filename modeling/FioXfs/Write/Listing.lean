import FioXfs.Write.NewInode
set_option autoImplicit false

/-!
# Names in directories

What a directory's names refer to, held in memory or read from what a ledger names of the device.
Whatever is done to inodes and blocks leaves the names in memory as they are.  A change of a
directory's names is seen in that directory and in no other.
-/

namespace FioXfs

open FioXfs.Lib FioXfs.Alloc FioXfs.Dir FioXfs.Bmap

namespace Volume

/-! ## Names that are held -/

/-- The names of directory `dino` as held in memory. -/
def heldDir (v : Volume) (dino : Nat) : Option DirState := v.w.bind fun w => w.dirs.get? dino

/-- The same names are in memory. -/
def SameNames (v v' : Volume) : Prop := ∀ dino, v'.heldDir dino = v.heldDir dino

instance instReflSameNames : Std.Refl SameNames := ⟨fun _ _ => rfl⟩

instance instIsTransSameNames : IsTrans Volume SameNames := ⟨fun _ _ _ h h' dino => (h' dino).trans (h dino)⟩

section
variable {α : Type} {v v' : Volume}

theorem steady_onDev {dx : Act Device α} : Steady SameNames (onDev dx) := steady_zoom fun _ _ _ => rfl

theorem steady_modifyWriter {f : Writer → Writer} (hf : ∀ w, (f w).dirs = w.dirs) :
    Steady SameNames (modifyWriter f) := by
  refine steady_modify fun v dino => ?_
  unfold heldDir
  cases v.w with
  | none => rfl
  | some w => exact congrArg (OrdMap.get? · dino) (hf w)

theorem steady_getWriter : Steady SameNames getWriter := by
  refine steady_get_bind fun v => ?_
  split
  · exact steady_throw _
  · exact steady_pure _

theorem steady_readClock : Steady SameNames readClock := by
  intro v
  refine leaves_get_bind ?_
  split
  · exact leaves_pure fun _ => rfl
  · exact fun _ => rfl

theorem steady_now : Steady SameNames now := by
  refine steady_get_bind fun v => ?_
  split
  · exact steady_pure _
  · exact steady_readClock

/-- A writer that is made holds no names. -/
theorem steady_writer : Steady SameNames writer := by
  intro v
  refine leaves_get_bind ?_
  split
  · rename_i hnone
    have hno : ∀ dino, v.heldDir dino = none := fun dino => by
      unfold heldDir
      rw [Option.isNone_iff_eq_none.mp hnone]
      rfl
    refine (steady_liftE _ v).bind fun _ v1 h1 => ?_
    refine ((steady_throwIf _ _ v1).mono (fun _ _ h => IsTrans.trans _ _ _ h1 h)
      fun _ _ h => IsTrans.trans _ _ _ h1 h).bind fun _ v2 h2 => ?_
    refine ((steady_readClock v2).mono (fun _ _ h => IsTrans.trans _ _ _ h2 h)
      fun _ _ h => IsTrans.trans _ _ _ h2 h).bind fun t v3 h3 => ?_
    exact leaves_modify fun dino => (hno dino).symm
  · exact leaves_pure fun _ => rfl

theorem steady_nextGen : Steady SameNames nextGen :=
  Steady.bind steady_getWriter fun _ => Steady.bind (steady_modifyWriter fun _ => rfl) fun _ => steady_pure _

theorem steady_loadAg {k : Nat} : Steady SameNames (loadAg k) := by
  refine Steady.bind steady_writer fun _ => Steady.bind steady_getWriter fun w => ?_
  split
  · exact steady_get_bind fun v => steady_liftE_bind fun ag => steady_modifyWriter fun _ => rfl
  · exact steady_pure _

theorem steady_onAg {k : Nat} {x : Act Ag α} : Steady SameNames (onAg k x) := by
  refine Steady.bind steady_getWriter fun w => ?_
  split
  · exact steady_throw _
  · refine steady_zoom fun v t dino => ?_
    unfold heldDir
    cases v.w <;> rfl

/-! ## Blocks that are taken and given back -/

theorem steady_allocFrom {k near : Nat} : ∀ {fuel left : Nat}, Steady SameNames (allocFrom k near fuel left)
  | _, 0 => by
    unfold allocFrom
    exact steady_pure _
  | 0, _ + 1 => steady_throw _
  | fuel + 1, left + 1 => by
    refine Steady.bind steady_onAg fun got => ?_
    split
    · exact steady_pure _
    · exact steady_get_bind fun v => Steady.bind steady_allocFrom fun _ => steady_pure _

theorem steady_allocAcross {pref near : Nat} {agnos : List Nat} : ∀ {left : Nat},
    Steady SameNames (allocAcross pref near agnos left) := by
  induction agnos with
  | nil => exact steady_pure _
  | cons k agnos ih =>
    intro left
    unfold allocAcross
    split
    · exact steady_pure _
    · exact Steady.bind steady_loadAg fun _ => Steady.bind steady_allocFrom fun _ =>
        Steady.bind ih fun _ => steady_pure _

theorem steady_undoAlloc : ∀ {runs : List (Nat × Nat)}, Steady SameNames (undoAlloc runs)
  | [] => steady_pure _
  | _ :: _ => steady_get_bind fun _ => Steady.bind steady_onAg fun _ => steady_undoAlloc

theorem steady_allocBlocks {pref n near : Nat} : Steady SameNames (allocBlocks pref n near) := by
  refine steady_get_bind fun v => steady_liftE_bind fun agnos => Steady.bind steady_allocAcross fun got => ?_
  dsimp only
  split
  · exact Steady.bind steady_undoAlloc fun _ => steady_throw _
  · exact steady_pure _

theorem steady_rmapExtent {fsb len owner offset : Nat} :
    Steady SameNames (rmapExtent fsb len owner offset) := steady_get_bind fun _ => steady_onAg

theorem steady_release {fsb len owner : Nat} : Steady SameNames (release fsb len owner) :=
  steady_get_bind fun _ => Steady.bind steady_loadAg fun _ => Steady.bind steady_onAg fun _ => steady_onAg

theorem steady_releaseAll {owner : Nat} : ∀ {runs : List (Nat × Nat)},
    Steady SameNames (releaseAll owner runs)
  | [] => steady_pure _
  | _ :: _ => Steady.bind steady_release fun _ => steady_releaseAll

theorem steady_freeFork {i : Inode} {attr : Bool} : Steady SameNames (freeFork i attr) :=
  steady_get_bind fun _ => steady_liftE_bind fun _ => Steady.bind steady_releaseAll fun _ =>
    Steady.bind steady_releaseAll fun _ => steady_pure _

/-! ## Data that are stored -/

theorem steady_writeMapped {data : Bytes} : ∀ {es : List Extent}, Steady SameNames (writeMapped data es)
  | [] => steady_pure _
  | _ :: _ => steady_get_bind fun _ => steady_liftE_bind fun _ => Steady.bind steady_onDev fun _ => steady_writeMapped

theorem steady_recordBmbt {ino : Nat} : ∀ {runs : List (Nat × Nat)}, Steady SameNames (recordBmbt ino runs)
  | [] => steady_pure _
  | _ :: _ => Steady.bind steady_rmapExtent fun _ => steady_recordBmbt

theorem steady_recordRuns {ino : Nat} : ∀ {runs : List (Nat × Nat)} {lblk : Nat},
    Steady SameNames (recordRuns ino lblk runs)
  | [], _ => steady_pure _
  | _ :: _, _ => Steady.bind steady_rmapExtent fun _ => Steady.bind steady_recordRuns fun _ => steady_pure _

theorem steady_writeFsbs : ∀ {bs : List (Nat × Bytes)}, Steady SameNames (writeFsbs bs)
  | [] => steady_pure _
  | _ :: _ => steady_get_bind fun _ => steady_liftE_bind fun _ => Steady.bind steady_onDev fun _ => steady_writeFsbs

theorem steady_mapFork {ino forkSize : Nat} {es : List Extent} : Steady SameNames (mapFork ino es forkSize) := by
  unfold mapFork
  split
  · exact steady_pure _
  · refine steady_get_bind fun v => ?_
    split
    · exact steady_throw _
    · exact steady_get_bind fun _ => Steady.bind steady_allocBlocks fun _ => Steady.bind steady_recordBmbt fun _ =>
        steady_liftE_bind fun _ => Steady.bind steady_writeFsbs fun _ => steady_pure _

theorem steady_storeData {ino forkSize : Nat} {data : Bytes} :
    Steady SameNames (storeData ino forkSize data) := by
  refine steady_get_bind fun v => ?_
  dsimp only
  split
  · exact steady_pure _
  · refine Steady.bind steady_allocBlocks fun _ => Steady.bind steady_recordRuns fun _ => ?_
    exact (Steady.bind steady_writeMapped fun _ => Steady.bind steady_mapFork fun _ => steady_pure _).recover
      fun _ => Steady.bind steady_releaseAll fun _ => steady_throw _

/-! ## Inodes -/

theorem steady_writeRaw {ino : Nat} {raw : Bytes} : Steady SameNames (writeRaw ino raw) :=
  steady_get_bind fun _ => steady_liftE_bind fun _ => steady_liftE_bind fun _ => steady_onDev

theorem steady_newRaw {ino m uid gid nlink : Nat} : Steady SameNames (newRaw ino m uid gid nlink) :=
  Steady.bind steady_now fun _ => Steady.bind steady_nextGen fun _ => steady_get_bind fun _ =>
    steady_liftE_bind fun _ => steady_pure _

theorem steady_freeInodes {sb : Superblock} : ∀ {count ino : Nat}, Steady SameNames (freeInodes sb ino count)
  | 0, _ => steady_pure _
  | _ + 1, _ => Steady.bind steady_nextGen fun _ => Steady.bind steady_freeInodes fun _ => steady_pure _

theorem steady_initChunk {k s : Nat} : Steady SameNames (initChunk k s) :=
  steady_get_bind fun _ => Steady.bind steady_freeInodes fun _ => steady_onDev

theorem steady_allocInoFrom : ∀ {agnos : List Nat}, Steady SameNames (allocInoFrom agnos)
  | [] => steady_throw _
  | k :: agnos => by
    refine Steady.bind steady_loadAg fun _ => steady_get_bind fun v => Steady.bind steady_onAg fun got => ?_
    split
    · exact steady_pure _
    · refine Steady.bind steady_getWriter fun w => steady_liftE_bind fun _ => Steady.bind steady_onAg fun got => ?_
      split
      · exact steady_allocInoFrom
      · refine Steady.bind steady_onAg fun got => ?_
        split
        · exact steady_throw _
        · exact Steady.bind (steady_modifyWriter fun _ => rfl) fun _ => Steady.bind steady_initChunk fun _ =>
            steady_pure _

theorem steady_allocIno {pref : Nat} : Steady SameNames (allocIno pref) :=
  steady_get_bind fun _ => steady_liftE_bind fun _ => steady_allocInoFrom

theorem steady_unallocIno {ino : Nat} : Steady SameNames (unallocIno ino) := steady_get_bind fun _ => steady_onAg

theorem steady_createNode {path : Bytes} {m uid gid nlink : Nat} :
    Steady SameNames (createNode path m uid gid nlink) :=
  steady_get_bind fun _ => steady_liftE_bind fun _ => steady_liftE_bind fun _ => steady_throwIf_bind fun _ =>
    Steady.bind steady_writer fun _ => Steady.bind steady_allocIno fun _ => Steady.bind steady_newRaw fun _ =>
      steady_pure _

theorem steady_destroy {i : Inode} : Steady SameNames (destroy i) := by
  refine steady_throwIf_bind fun _ => steady_throwIf_bind fun _ => Steady.bind steady_freeFork fun _ => ?_
  split
  · exact Steady.bind steady_freeFork fun _ => steady_get_bind fun _ => steady_liftE_bind fun _ =>
      Steady.bind steady_writeRaw fun _ => Steady.bind steady_loadAg fun _ => steady_onAg
  · exact steady_get_bind fun _ => steady_liftE_bind fun _ => Steady.bind steady_writeRaw fun _ =>
      Steady.bind steady_loadAg fun _ => steady_onAg

theorem steady_dropLink {ino : Nat} : Steady SameNames (dropLink ino) := by
  refine steady_get_bind fun v => steady_liftE_bind fun i => ?_
  split
  · exact steady_destroy
  · exact steady_liftE_bind fun _ => Steady.bind steady_now fun _ => steady_liftE_bind fun _ => steady_writeRaw

theorem steady_replaceFile {path : Bytes} {ino : Nat} {data : Bytes} {attrs : Option Attrs} :
    Steady SameNames (replaceFile path ino data attrs) := by
  refine Steady.bind steady_writer fun _ => steady_get_bind fun v => steady_liftE_bind fun i => steady_throwIf_bind fun _ =>
    steady_throwIf_bind fun _ => steady_liftE_bind fun raw => Steady.bind steady_storeData fun out => ?_
  exact Steady.bind steady_freeFork fun _ => steady_liftE_bind fun _ => Steady.bind steady_now fun _ =>
    steady_liftE_bind fun _ => Steady.bind steady_writeRaw fun _ => steady_pure _

end

/-! ## What names refer to -/

/-- The listing in which a name refers to what `names` says, but for the dot entries. -/
def Tells (names : Bytes → Option (Nat × FileType)) (find : Bytes → Option (Nat × FileType)) : Prop :=
  ∀ name, name ≠ DOT → name ≠ DOTDOT → find name = names name

/-- What a name refers to among those in memory. -/
def nameHeld (st : DirState) (name : Bytes) : Option (Nat × FileType) :=
  (st.names.get? name).map fun e => (e.1, .fromFtype e.2)

/-- What a name refers to among those that were read. -/
def findIn (es : List RawEntry) (name : Bytes) : Option (Nat × FileType) :=
  (findEntry es name).map fun e => (e.ino, e.ftype)

/-- Directory `dino` is one of the ledger's, and its names are those of `names`: in memory, or
as they are read wherever the ledger's bytes are the same, each name once. -/
structure Refers (L : Ledger) (v : Volume) (dino : Nat) (names : Bytes → Option (Nat × FileType)) : Prop where
  mem : dino ∈ L.inodes
  node : ∃ k b i, NodeAt v.sb dino k b i
  dir : ∃ a i, SlotAt v.dev v.sb dino a ∧ Inode.parse v.sb dino a = .ok i ∧ i.ino = dino ∧ i.isDir = true ∧
    ((∃ st, v.heldDir dino = some st ∧ Tells names (nameHeld st)) ∨ v.heldDir dino = none ∧
      ∃ es, (es.map RawEntry.name).Nodup ∧ Tells names (findIn es) ∧
        ∀ u : Volume, u.sb = v.sb → Device.SameOn (L.Names v.sb) v.dev u.dev → u.heldDir dino = none →
          u.dirEntries i = .ok es)

section
variable {v v' : Volume} {L : Ledger} {dino ino : Nat} {names : Bytes → Option (Nat × FileType)} {name : Bytes}
  {kind : FileType}

/-- A directory stays where the ledger's bytes and its names in memory do. -/
theorem Refers.sameOn (h : Refers L v dino names) (hf : v.sb.Fitting) (hsb : v'.sb = v.sb)
    (hdev : Device.SameOn (L.Names v.sb) v.dev v'.dev) (hheld : v'.heldDir dino = v.heldDir dino) :
    Refers L v' dino names := by
  obtain ⟨k, b, j, hnode⟩ := h.node
  obtain ⟨a, i, hslot, hparse, hino, hisDir, hnames⟩ := h.dir
  have hslot' : SlotAt v'.dev v.sb dino a := hslot.sameOn hf hnode hdev fun p _ hp => Or.inr (hp ▸ h.mem)
  refine ⟨h.mem, hsb ▸ h.node, a, i, hsb ▸ hslot', hsb ▸ hparse, hino, hisDir, ?_⟩
  rw [hheld]
  refine hnames.imp_right ?_
  rintro ⟨hnone, es, hnodup, htells, hread⟩
  exact ⟨hnone, es, hnodup, htells, fun u husb hudev => hread u (husb.trans hsb) (hdev.trans (hsb ▸ hudev))⟩

/-- The names of a directory that is held in memory. -/
theorem dirEntries_held {i : Inode} {st : DirState} (hdir : i.isDir = true) (hheld : v.heldDir i.ino = some st) :
    v.dirEntries i = .ok (⟨DOT, i.ino, .directory⟩ :: ⟨DOTDOT, st.parent, .directory⟩ ::
      st.names.entries.map fun e => ⟨e.1, e.2.1, .fromFtype e.2.2⟩) := by
  have hcached : v.w.bind (·.cachedEntries i.ino) = some (⟨DOT, i.ino, .directory⟩ ::
      ⟨DOTDOT, st.parent, .directory⟩ :: st.names.entries.map fun e => ⟨e.1, e.2.1, .fromFtype e.2.2⟩) := by
    unfold heldDir at hheld
    obtain ⟨w, hw, hget⟩ := Option.bind_eq_some_iff.mp hheld
    rw [hw]
    change (w.dirs.get? i.ino).map _ = _
    rw [hget]
    rfl
  unfold dirEntries
  rw [except_throwIf_bind_of_not (by rw [hdir]; decide), hcached]
  rfl

/-- A name that is not a dot entry is found where the map has it. -/
theorem findIn_held {st : DirState} {parent : Nat} (hdot : name ≠ DOT) (hdots : name ≠ DOTDOT) :
    findIn (⟨DOT, dino, .directory⟩ :: ⟨DOTDOT, parent, .directory⟩ ::
      st.names.entries.map fun e => ⟨e.1, e.2.1, .fromFtype e.2.2⟩) name = nameHeld st name := by
  unfold findIn findEntry nameHeld OrdMap.get?
  rw [List.find?_cons_of_neg (by simpa using Ne.symm hdot), List.find?_cons_of_neg (by simpa using Ne.symm hdots),
    List.find?_map, Option.map_map, Option.map_map]
  refine congrArg₂ Option.map rfl (congrArg (List.find? · st.names.entries) (funext fun e => ?_))
  simp

/-- What a name refers to is what the names say. -/
theorem Refers.entry (h : Refers L v dino names) (hs : v.sb.Sound) (hdot : name ≠ DOT) (hdots : name ≠ DOTDOT) :
    v.entry dino name = .ok (names name) := by
  obtain ⟨a, i, hslot, hparse, rfl, hisDir, hnames⟩ := h.dir
  unfold Volume.entry
  rw [(hslot.inode_eq hs).trans hparse, except_ok_bind]
  rcases hnames with ⟨st, hheld, htells⟩ | ⟨hnone, es, -, htells, hread⟩
  · rw [dirEntries_held hisDir hheld, except_ok_bind]
    exact congrArg Except.ok ((findIn_held hdot hdots).trans (htells name hdot hdots))
  · rw [hread v rfl (.refl _ _) hnone, except_ok_bind]
    exact congrArg Except.ok (htells name hdot hdots)

/-! ## Names that are changed -/

/-- Names that are held as they were read refer to what they did. -/
theorem nameHeld_dirStateOf {es : List RawEntry} (hnodup : (es.map RawEntry.name).Nodup) (hdot : name ≠ DOT)
    (hdots : name ≠ DOTDOT) : nameHeld (dirStateOf dino es) name = findIn es name := by
  -- the later names leave what an earlier one refers to
  have hfold : ∀ (es : List RawEntry) (st : DirState), (es.map RawEntry.name).Nodup →
      nameHeld (es.foldl (fun st e =>
        if e.name = DOTDOT then { st with parent := e.ino }
        else if e.name ≠ DOT then { st with names := st.names.insert e.name (e.ino, e.ftype.code) }
        else st) st) name = (findIn es name).or (nameHeld st name) := by
    intro es
    induction es with
    | nil => exact fun st _ => rfl
    | cons e es ih =>
      intro st hnodup
      obtain ⟨hnot, hrest⟩ := List.nodup_cons.mp hnodup
      rw [List.foldl_cons, ih _ hrest]
      by_cases heq : e.name = name
      · have hlater : findIn es name = none := by
          unfold findIn findEntry
          rw [Option.map_eq_none_iff, List.find?_eq_none]
          intro e' he' heq'
          exact hnot (List.mem_map.mpr ⟨e', he', (of_decide_eq_true heq').trans heq.symm⟩)
        have hfirst : findIn (e :: es) name = some (e.ino, e.ftype) := by
          unfold findIn findEntry
          rw [List.find?_cons_of_pos (by simpa using heq)]
          rfl
        rw [hlater, hfirst, if_neg (heq ▸ hdots), if_pos (heq ▸ hdot)]
        unfold nameHeld
        simp [heq, FileType.fromFtype_code]
      · have hskip : findIn (e :: es) name = findIn es name := by
          unfold findIn findEntry
          rw [List.find?_cons_of_neg (by simpa using heq)]
        rw [hskip]
        congr 1
        split
        · rfl
        · split
          · unfold nameHeld
            simp [Ne.symm heq]
          · rfl
  refine (hfold es ⟨dino, .empty⟩ hnodup).trans ?_
  unfold nameHeld
  simp [OrdMap.get?, OrdMap.empty]

theorem modifyWriter_eq_ok {g : Writer → Writer} {w : Writer} (hw : v.w = some w)
    (h : modifyWriter g v = .ok () v') : v' = { v with w := some (g w) } := by
  obtain ⟨-, rfl⟩ := EStateM.Result.ok.inj h
  change { v with w := v.w.map g } = _
  rw [hw, Option.map_some]

/-- The names of a directory are held from now on, those of the others as they were. -/
theorem dirState_eq_ok (h : Refers L v dino names) (hs : v.sb.Sound) (hrun : dirState dino v = .ok () v') :
    Still v v' ∧ (∃ st, v'.heldDir dino = some st ∧ Tells names (nameHeld st)) ∧
      ∀ d, d ≠ dino → v'.heldDir d = v.heldDir d := by
  unfold dirState at hrun
  obtain ⟨_, v1, h1, hload⟩ := bind_eq_ok.mp hrun
  have hstill := writer_still.ok h1
  have hsame : SameNames v v1 := steady_writer.ok h1
  obtain ⟨w, v2, h2, hrest⟩ := bind_eq_ok.mp hload
  obtain ⟨hw, rfl⟩ := getWriter_eq_ok h2
  have hget : ∀ d, v2.heldDir d = w.dirs.get? d := fun d => by
    unfold heldDir
    rw [hw]
    rfl
  obtain ⟨a, i, hslot, hparse, hino, hisDir, hnames⟩ := h.dir
  rcases hnames with ⟨st, hheld, htells⟩ | ⟨hnone, es, hnodup, htells, hread⟩
  · rw [if_neg (by rw [← hget, hsame, hheld]; simp)] at hrest
    obtain ⟨-, rfl⟩ := EStateM.Result.ok.inj hrest
    exact ⟨hstill, ⟨st, (hsame dino).trans hheld, htells⟩, fun d _ => hsame d⟩
  · rw [if_pos (by rw [← hget, hsame, hnone]; rfl)] at hrest
    simp only [get_bind_apply] at hrest
    obtain ⟨i', v3, h3, hnext⟩ := bind_eq_ok.mp hrest
    obtain ⟨hinode, rfl⟩ := liftE_eq_ok.mp h3
    obtain ⟨es', v4, h4, hset⟩ := bind_eq_ok.mp hnext
    obtain ⟨hentries, rfl⟩ := liftE_eq_ok.mp h4
    have hv' := modifyWriter_eq_ok hw hset
    have hslot' : SlotAt v2.dev v2.sb dino a := hstill.sb ▸ hstill.dev ▸ hslot
    have hi : i' = i :=
      Except.ok.inj (hinode.symm.trans ((hslot'.inode_eq (hstill.sb ▸ hs)).trans (hstill.sb ▸ hparse)))
    subst hi
    have hes : es' = es := Except.ok.inj (hentries.symm.trans
      (hread v2 hstill.sb (hstill.dev ▸ .refl _ _) ((hsame dino).trans hnone)))
    subst hes
    have hafter : ∀ d, v'.heldDir d = if d = dino then some (dirStateOf dino es') else v2.heldDir d :=
        fun d => by
      rw [hv', hget]
      exact OrdMap.get?_insert w.dirs dino d _
    refine ⟨dirState_still.ok hrun, ⟨dirStateOf dino es', ?_, fun name hdot hdots => ?_⟩, fun d hd => ?_⟩
    · exact (hafter dino).trans (if_pos rfl)
    · exact (nameHeld_dirStateOf hnodup hdot hdots).trans (htells name hdot hdots)
    · exact ((hafter d).trans (if_neg hd)).trans (hsame d)

/-- A change of a directory's names is one of what is held of it, and of no other directory. -/
theorem changeNames_eq_ok {f : OrdMap Bytes (Nat × Nat) → OrdMap Bytes (Nat × Nat)} (h : Refers L v dino names)
    (hs : v.sb.Sound) (hrun : changeNames dino f v = .ok () v') :
    Still v v' ∧ (∃ st, v'.heldDir dino = some { st with names := f st.names } ∧ Tells names (nameHeld st)) ∧
      ∀ d, d ≠ dino → v'.heldDir d = v.heldDir d := by
  have hstill := changeNames_still.ok hrun
  unfold changeNames at hrun
  obtain ⟨_, v1, h1, hset⟩ := bind_eq_ok.mp hrun
  obtain ⟨-, ⟨st, hheld, htells⟩, hother⟩ := dirState_eq_ok h hs h1
  unfold heldDir at hheld
  obtain ⟨w, hw, hget⟩ := Option.bind_eq_some_iff.mp hheld
  have hv' := modifyWriter_eq_ok hw hset
  rw [hget] at hv'
  have hafter : ∀ d, v'.heldDir d = if d = dino then some { st with names := f st.names } else v1.heldDir d :=
      fun d => by
    have hbefore : v1.heldDir d = w.dirs.get? d := by
      unfold heldDir
      rw [hw]
      rfl
    rw [hv', hbefore]
    exact OrdMap.get?_insert w.dirs dino d _
  refine ⟨hstill, ⟨st, (hafter dino).trans (if_pos rfl), htells⟩, fun d hd => ?_⟩
  exact ((hafter d).trans (if_neg hd)).trans (hother d hd)

/-- The directory after its names have changed. -/
theorem Refers.changed {f : OrdMap Bytes (Nat × Nat) → OrdMap Bytes (Nat × Nat)}
    {names' : Bytes → Option (Nat × FileType)} (h : Refers L v dino names) (hf : v.sb.Fitting)
    (hrun : changeNames dino f v = .ok () v')
    (hnames : ∀ st, Tells names (nameHeld st) → Tells names' (nameHeld { st with names := f st.names })) :
    Refers L v' dino names' := by
  have hs := hf.addressable.sound
  obtain ⟨hstill, ⟨st, hheld, htells⟩, -⟩ := changeNames_eq_ok h hs hrun
  obtain ⟨a, i, hslot, hparse, hino, hisDir, -⟩ := h.dir
  exact ⟨h.mem, hstill.sb ▸ h.node, a, i, hstill.sb ▸ hstill.dev ▸ hslot, hstill.sb ▸ hparse, hino, hisDir,
    Or.inl ⟨_, hheld, hnames st htells⟩⟩

/-- A name that is put in refers to what it was put in for, and the others to what they did. -/
theorem Refers.added (h : Refers L v dino names) (hf : v.sb.Fitting)
    (hrun : addName dino name ino kind v = .ok () v') :
    Refers L v' dino (Function.update names name (some (ino, kind))) := by
  refine h.changed hf hrun fun st htells other hdot hdots => ?_
  unfold nameHeld
  rw [OrdMap.get?_insert]
  by_cases heq : other = name
  · subst heq
    rw [if_pos rfl, Function.update_self, Option.map_some, FileType.fromFtype_code]
  · rw [if_neg heq, Function.update_of_ne heq]
    exact htells other hdot hdots

/-- A name that is taken out refers to nothing, and the others to what they did. -/
theorem Refers.removed (h : Refers L v dino names) (hf : v.sb.Fitting)
    (hrun : changeNames dino (fun names => names.erase name) v = .ok () v') :
    Refers L v' dino (Function.update names name none) := by
  refine h.changed hf hrun fun st htells other hdot hdots => ?_
  unfold nameHeld
  by_cases heq : other = name
  · subst heq
    rw [Function.update_self, Option.map_eq_none_iff]
    exact OrdMap.get?_eq_none.mpr fun e he => (OrdMap.mem_erase.mp he).2
  · rw [Function.update_of_ne heq, ← htells other hdot hdots]
    unfold nameHeld
    congr 1
    refine Option.ext fun e => ?_
    rw [OrdMap.get?_eq_some, OrdMap.get?_eq_some, OrdMap.mem_erase]
    exact and_iff_left heq

end

end Volume

end FioXfs
