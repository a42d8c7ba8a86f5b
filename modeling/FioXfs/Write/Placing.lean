import FioXfs.Write.Entered
import FioXfs.Write.Removing
set_option autoImplicit false

/-!
# Directories that are written

A directory that is written gives its old blocks back, takes others and fills them.  The books follow
all of it, and the bytes of the other directories' inodes and blocks stay.
-/

namespace FioXfs

open FioXfs.Lib FioXfs.Alloc FioXfs.Bmap Relation

namespace Volume

/-! ## Steps that are accounted -/

/-- The ledger is minded, and entered in the books. -/
structure Ready (v : Volume) (L : Ledger) (book : Book) : Prop where
  minds : v.Minds L
  entered : Entered v L book

/-- `v'` comes of `v` with the bytes `P` as they were, and the books follow. -/
structure Accounts (P : Nat → Prop) (L : Ledger) (v : Volume) (book : Book) (v' : Volume) : Prop where
  kept : Kept P L v v'
  follows : Follows L (v, book) v'

section
variable {v v' v'' : Volume} {L L' : Ledger} {book : Book} {P P' : Nat → Prop} {R : Set Nat} {d : Device}
  {es : List Extent} {near agno ino lblk : Nat} {data : Bytes}

/-- What comes next is told from the books there are then. -/
theorem Accounts.next (h : Accounts P L v book v') : ∃ book', Ready v' L book' ∧
    ∀ {L' : Ledger} {v'' : Volume}, Accounts P L' v' book' v'' → Accounts P L' v book v'' := by
  obtain ⟨book', hsteps, he⟩ := h.follows
  refine ⟨book', ⟨h.kept.minds, he⟩, fun hnext => ⟨h.kept.trans hnext.kept, ?_⟩⟩
  obtain ⟨book'', hsteps', he'⟩ := hnext.follows
  exact ⟨book'', hsteps.trans hsteps', he'⟩

theorem Accounts.mono (h : Accounts P L' v book v') (ha : v.sb.Addressable) (hle : L ≤ L') :
    Accounts P L v book v' := ⟨h.kept.mono ha hle, h.follows.mono hle⟩

theorem Accounts.of_bytes (h : Accounts P' L v book v') (hP : ∀ p, P p → P' p) : Accounts P L v book v' :=
  ⟨h.kept.of_bytes hP, h.follows⟩

theorem Ready.refl (h : Ready v L book) : Accounts P L v book v := ⟨h.minds.kept, h.entered.refl⟩

theorem Ready.still (h : Ready v L book) (hs : Still v v') : Accounts P L v book v' :=
  ⟨hs.kept h.minds, h.entered.still hs⟩

/-- Blocks that were free are written. -/
theorem Ready.written (h : Ready v L' book) (hs : v.sb.Sound) (hlacks : L.Lacks v.sb R) (hR : R ⊆ L'.blocks)
    (hsame : Device.SameOn (fun p => ¬v.sb.BytesOf R p) v.dev d) :
    Accounts (L.Names v.sb) L' v book { v with dev := d } := by
  refine ⟨kept_written h.minds hs hlacks hR hsame, h.entered.dev ?_⟩
  exact hsame.mono fun p hp hof => hp.2 (Or.inl (hR hof.2))

/-- An inode is written. -/
theorem Ready.inode {k b i : Nat} {raw : Bytes} (h : Ready v L' book) (hf : v.sb.Fitting)
    (hn : NodeAt v.sb ino k b i) (hlacks : LacksNode v.sb L ino) (hin : ino ∈ L'.inodes)
    (hlen : raw.length = v.sb.inodeSize) (hrun : writeRaw ino raw v = .ok () v') :
    Accounts (L.Names v.sb) L' v book v' := by
  refine ⟨((writeRaw_leaves h.minds hf hn hlacks hin hlen).ok hrun).1, ?_⟩
  obtain ⟨d, rfl, hd, -⟩ := (writeRaw_slot hf hn hlen).ok hrun
  refine h.entered.dev (hd.mono fun p hp hof => hp.2 (Or.inr ?_))
  rw [hof.2]
  exact hin

/-! ## Giving back, and taking -/

/-- A fork's blocks leave the ledger. -/
theorem freeFork_accounts {i : Inode} {bs : List Nat} {freed : Nat} (h : Ready v L' book) (hf : v.sb.Fitting)
    (hmap : Bmap.forkMap v.dev v.sb i false = .ok (es, bs))
    (hl : Leaving v.sb L L' (extentRuns es ++ bs.map (·, 1))) (hrun : freeFork i false v = .ok freed v') :
    Accounts P L v book v' := by
  refine ⟨((freeFork_leaves h.minds hf hmap hl).ok hrun).2, ?_⟩
  obtain ⟨hfirst, hsecond⟩ := hl.append
  unfold freeFork at hrun
  rw [get_bind_apply] at hrun
  obtain ⟨m, v1, hlift, hrun⟩ := bind_eq_ok.mp hrun
  obtain ⟨hm, rfl⟩ := liftE_eq_ok.mp hlift
  obtain rfl : m = (es, bs) := Except.ok.inj (hm.symm.trans hmap)
  obtain ⟨_, v2, hextents, hrun⟩ := bind_eq_ok.mp hrun
  obtain ⟨_, v3, htree, hrun⟩ := bind_eq_ok.mp hrun
  obtain ⟨-, rfl⟩ := EStateM.Result.ok.inj hrun
  have hgone := releaseAll_follows h.entered hf hfirst hextents
  have hsb := hgone.sb_eq
  exact hgone.trans fun book2 h2 => releaseAll_follows h2 (hsb ▸ hf) (hsb ▸ hsecond) htree

/-- Blocks are taken and written down as parts of a fork. -/
theorem allocBlocks_accounts {pref n : Nat} {runs : List (Nat × Nat)} (h : Ready v L book) (hf : v.sb.Fitting)
    (hrun : allocBlocks pref n near v = .ok runs v') :
    Accounts P (L.withBlocks (covered runs)) v book v' ∧ Taken v.sb L runs ∧ (runs.map (·.2)).sum = n := by
  have hgave := (@allocBlocks_leaves v L P near pref n h.minds hf).ok hrun
  exact ⟨⟨hgave.kept, allocBlocks_follows h.entered hf.addressable hrun⟩, hgave.taken, hgave.total⟩

theorem recordRuns_accounts {runs : List (Nat × Nat)} (h : Ready v L book) (hf : v.sb.Fitting)
    (hin : ∀ r ∈ runs, InOneAg v.sb r) (hrun : recordRuns ino lblk runs v = .ok es v') :
    Accounts P L v book v' :=
  ⟨((recordRuns_leaves h.minds hf hin).ok hrun).1, recordRuns_follows h.entered hf.addressable hrun⟩

theorem recordBmbt_accounts {runs : List (Nat × Nat)} (h : Ready v L book) (hf : v.sb.Fitting)
    (hin : ∀ r ∈ runs, InOneAg v.sb r) (hrun : recordBmbt ino runs v = .ok () v') :
    Accounts P L v book v' :=
  ⟨(recordBmbt_leaves h.minds hf hin).ok hrun, recordBmbt_follows h.entered hf.addressable hrun⟩

/-- The extents map blocks of these runs. -/
def Maps (es : List Extent) (runs : List (Nat × Nat)) : Prop := ∀ e ∈ es, (e.block, e.count) ∈ runs

/-- The blocks of a directory's logical blocks are taken. -/
theorem allocRuns_accounts : ∀ {lruns : List (Nat × Nat)} {L : Ledger} {v : Volume} {book : Book}
    {es : List Extent}, Ready v L book → v.sb.Fitting → allocRuns ino agno near lruns v = .ok es v' →
      ∃ runs, Accounts P (L.withBlocks (covered runs)) v book v' ∧ Taken v.sb L runs ∧ Maps es runs := by
  intro lruns
  induction lruns with
  | nil =>
    intro L v book es h _ hrun
    obtain ⟨rfl, rfl⟩ := EStateM.Result.ok.inj hrun
    refine ⟨[], ?_, taken_nil _ _, fun _ he => absurd he List.not_mem_nil⟩
    rw [Ledger.withBlocks_nil]
    exact h.refl
  | cons r lruns ih =>
    intro L v book es h hf hrun
    obtain ⟨lstart, n⟩ := r
    obtain ⟨got, v1, halloc, hrun⟩ := bind_eq_ok.mp hrun
    obtain ⟨fork, v2, hrec, hrun⟩ := bind_eq_ok.mp hrun
    obtain ⟨rest, v3, hrest, hrun⟩ := bind_eq_ok.mp hrun
    obtain ⟨rfl, rfl⟩ := EStateM.Result.ok.inj hrun
    obtain ⟨htook, htaken, -⟩ := @allocBlocks_accounts v v1 L book P _ _ _ _ h hf halloc
    obtain ⟨book1, h1, hto1⟩ := htook.next
    have hsb1 := htook.kept.sb
    have hrecorded := recordRuns_accounts (P := P) h1 (hsb1 ▸ hf) (fun r hr => hsb1 ▸ htaken.inAg r hr) hrec
    obtain ⟨book2, h2, hto2⟩ := hrecorded.next
    have hsb2 := hrecorded.kept.sb.trans hsb1
    obtain ⟨runs, hmore, htaken', hmaps⟩ := ih h2 (hsb2 ▸ hf) hrest
    rw [Ledger.withBlocks_withBlocks, ← covered_append] at hmore
    refine ⟨got ++ runs, hto1 (hto2 hmore), htaken.append (hsb2 ▸ htaken'), fun e he => ?_⟩
    rcases List.mem_append.mp he with he | he
    · rw [(recordRuns_eq_ok hrec).1] at he
      exact List.mem_append_left _ (mem_extentsFrom he).1
    · exact List.mem_append_right _ (hmaps e he)

/-! ## Filling them -/

/-- A logical block that is found is in one of the extents. -/
theorem fsbOf_ok {fsb : Nat} (h : fsbOf es lblk = .ok fsb) :
    ∃ e ∈ es, e.block ≤ fsb ∧ fsb < e.block + e.count := by
  unfold fsbOf at h
  cases hfind : Bmap.find es lblk with
  | none =>
    rw [hfind] at h
    cases h
  | some e =>
    rw [hfind] at h
    obtain rfl := Except.ok.inj h
    unfold Bmap.find at hfind
    obtain ⟨hhead, hoff⟩ := Option.filter_eq_some_iff.mp hfind
    have hstop := List.head?_dropWhile_not (fun e : Extent => decide (e.stop ≤ lblk)) es
    rw [hhead] at hstop
    have hstop : ¬e.stop ≤ lblk := of_decide_eq_false hstop
    have hmem := (List.dropWhile_sublist _).subset (List.mem_of_mem_head? hhead)
    simp only [decide_eq_true_eq, Extent.stop] at hstop hoff
    exact ⟨e, hmem, Nat.le_add_right _ _, by omega⟩

/-- A block that is written is one of the runs'. -/
theorem sameOn_of_writeFsb {runs : List (Nat × Nat)} {fsb at_ : Nat} {buf : Bytes} (hf : v.sb.Fitting)
    (hin : ∀ r ∈ runs, InOneAg v.sb r) (hmaps : Maps es runs) (hfsb : fsbOf es lblk = .ok fsb)
    (hat : v.sb.fsbToByte fsb = .ok at_) (hlen : buf.length ≤ v.sb.blockSize)
    (hrun : Device.writeAt at_ buf v.dev = .ok () d) :
    Device.SameOn (fun p => ¬v.sb.BytesOf (covered runs) p) v.dev d := by
  obtain ⟨e, he, hlo, hhi⟩ := fsbOf_ok hfsb
  have hmem := hmaps e he
  obtain ⟨hone, -⟩ := (hin _ hmem).block_run hf hlo hhi
  obtain ⟨-, rfl⟩ := inside_of_fsbToByte hat
  refine (Device.writeAt_wroteIn.ok hrun).sameOn fun p hp => ?_
  by_contra hmeet
  refine hp (bytesOf_mono (bytesOf_run hf hone (by simp only; omega) (by simp only; omega)) ?_)
  rintro x ⟨r, hr, hxlo, hxhi⟩
  obtain rfl := List.mem_singleton.mp hr
  simp only at hxlo hxhi
  exact ⟨_, hmem, by simp only; omega, by simp only; omega⟩

/-- What is written lies in the runs. -/
theorem writeDirParts_ok {runs : List (Nat × Nat)} : ∀ {count k : Nat} {v v' : Volume}, v.sb.Fitting →
    (∀ r ∈ runs, InOneAg v.sb r) → Maps es runs → writeDirParts es lblk data k count v = .ok () v' →
      ∃ d, v' = { v with dev := d } ∧ Device.SameOn (fun p => ¬v.sb.BytesOf (covered runs) p) v.dev d := by
  intro count
  induction count with
  | zero =>
    intro k v v' _ _ _ hrun
    obtain ⟨-, rfl⟩ := EStateM.Result.ok.inj hrun
    exact ⟨v.dev, rfl, .refl _ _⟩
  | succ count ih =>
    intro k v v' hf hin hmaps hrun
    unfold writeDirParts at hrun
    rw [get_bind_apply] at hrun
    obtain ⟨fsb, v1, hl, hrun⟩ := bind_eq_ok.mp hrun
    obtain ⟨hfsb, rfl⟩ := liftE_eq_ok.mp hl
    obtain ⟨at_, v1, hl, hrun⟩ := bind_eq_ok.mp hrun
    obtain ⟨hat, rfl⟩ := liftE_eq_ok.mp hl
    obtain ⟨_, v1, hdev, hrun⟩ := bind_eq_ok.mp hrun
    obtain ⟨d, hw, rfl⟩ := onDev_eq_ok.mp hdev
    have hfirst := sameOn_of_writeFsb hf hin hmaps hfsb hat (List.length_take_le _ _) hw
    obtain ⟨d', rfl, hrest⟩ := ih (v := { v with dev := d }) hf hin hmaps hrun
    exact ⟨d', rfl, hfirst.trans hrest⟩

theorem writeDirBlocks_ok {runs : List (Nat × Nat)} {per : Nat} : ∀ {blocks : List DirWrite.DirBlock}
    {v v' : Volume}, v.sb.Fitting → (∀ r ∈ runs, InOneAg v.sb r) → Maps es runs →
      writeDirBlocks es per blocks v = .ok () v' → ∃ d, v' = { v with dev := d } ∧
        Device.SameOn (fun p => ¬v.sb.BytesOf (covered runs) p) v.dev d := by
  intro blocks
  induction blocks with
  | nil =>
    intro v v' _ _ _ hrun
    obtain ⟨-, rfl⟩ := EStateM.Result.ok.inj hrun
    exact ⟨v.dev, rfl, .refl _ _⟩
  | cons b blocks ih =>
    intro v v' hf hin hmaps hrun
    unfold writeDirBlocks at hrun
    rw [get_bind_apply] at hrun
    obtain ⟨fsb, v1, hl, hrun⟩ := bind_eq_ok.mp hrun
    obtain ⟨-, rfl⟩ := liftE_eq_ok.mp hl
    obtain ⟨at_, v1, hl, hrun⟩ := bind_eq_ok.mp hrun
    obtain ⟨-, rfl⟩ := liftE_eq_ok.mp hl
    obtain ⟨_, v1, hparts, hrun⟩ := bind_eq_ok.mp hrun
    obtain ⟨d, rfl, hfirst⟩ := writeDirParts_ok hf hin hmaps hparts
    obtain ⟨d', rfl, hrest⟩ := ih (v := { v with dev := d }) hf hin hmaps hrun
    exact ⟨d', rfl, hfirst.trans hrest⟩

/-- Extents are mapped in a fork, with blocks taken for a B+tree if need be. -/
theorem mapFork_accounts {forkSize : Nat} {out : Format × Bytes × Nat} (h : Ready v L book)
    (hf : v.sb.Fitting) (hrun : mapFork ino es forkSize v = .ok out v') :
    ∃ runs, Accounts (L.Names v.sb) (L.withBlocks (covered runs)) v book v' := by
  unfold mapFork at hrun
  by_cases hbig : es.length ≤ forkSize / 16
  · rw [if_pos hbig] at hrun
    obtain ⟨-, rfl⟩ := EStateM.Result.ok.inj hrun
    refine ⟨[], ?_⟩
    rw [Ledger.withBlocks_nil]
    exact h.refl
  · rw [if_neg hbig, get_bind_apply] at hrun
    cases hnb : bmapBlocks es.length v.sb.blockSize (bmapRootMax forkSize) with
    | none =>
      rw [hnb] at hrun
      cases hrun
    | some nb =>
      rw [hnb] at hrun
      simp only at hrun
      unfold mapOver at hrun
      rw [get_bind_apply] at hrun
      obtain ⟨runs, v1, halloc, hrun⟩ := bind_eq_ok.mp hrun
      obtain ⟨_, v2, hrec, hrun⟩ := bind_eq_ok.mp hrun
      obtain ⟨⟨format, fork, blocks⟩, v3, hlift, hrun⟩ := bind_eq_ok.mp hrun
      obtain ⟨hlaid, rfl⟩ := liftE_eq_ok.mp hlift
      obtain ⟨_, v4, hwrite, hrun⟩ := bind_eq_ok.mp hrun
      obtain ⟨-, rfl⟩ := EStateM.Result.ok.inj hrun
      obtain ⟨htook, htaken, htotal⟩ := @allocBlocks_accounts v v1 L book (L.Names v.sb) _ _ _ _ h hf halloc
      obtain ⟨book1, h1, hto1⟩ := htook.next
      have hsb1 := htook.kept.sb
      have hrecorded := recordBmbt_accounts (P := L.Names v.sb) h1 (hsb1 ▸ hf)
        (fun r hr => hsb1 ▸ htaken.inAg r hr) hrec
      obtain ⟨book2, h2, hto2⟩ := hrecorded.next
      have hsb2 := hrecorded.kept.sb.trans hsb1
      have hblock : ∀ x ∈ expand runs, InOneAg v.sb (x, 1) ∧ ∃ at_, v.sb.fsbToByte x = .ok at_ := by
        intro x hx
        obtain ⟨r, hr, hlo, hhi⟩ := mem_expand_iff.mp hx
        obtain ⟨hin, -, hat⟩ := (htaken.inAg r hr).block_run hf hlo hhi
        exact ⟨hin, hat⟩
      obtain ⟨hplaced, hwhole⟩ := blocks_of_layFork hf.addressable.sound hbig
        (by rw [length_expand, htotal]; exact hnb) (fun x hx => (hblock x hx).2) hlaid
      have hmem : ∀ b ∈ blocks, b.1 ∈ expand runs := fun b hb => by
        rw [← hplaced]
        exact List.mem_map_of_mem hb
      obtain ⟨d, rfl, -, hsame⟩ := (@writeFsbs_leaves blocks v2 (hsb2 ▸ hf)
        (fun b hb => ⟨hsb2 ▸ (hblock _ (hmem b hb)).1, by rw [hsb2]; exact hwhole b hb⟩)
        (hplaced ▸ nodup_expand htaken.apart)).ok hwrite
      have hcovers : covered (blocks.map fun b => (b.1, 1)) ⊆ covered runs := by
        rintro x ⟨r, hr, hlo, hhi⟩
        obtain ⟨b, hb, rfl⟩ := List.mem_map.mp hr
        simp only at hlo hhi
        obtain rfl : x = b.1 := by omega
        exact mem_expand_iff.mp (hmem b hb)
      have hwritten := h2.written (hsb2 ▸ hf.addressable.sound) (hsb2 ▸ htaken.lacks) Set.subset_union_right
        (hsame.mono fun p hp hof => hp (bytesOf_mono hof hcovers))
      exact ⟨runs, hto1 (hto2 (hwritten.of_bytes fun p hp => by rwa [hsb2]))⟩

/-- A directory is put where its layout has it. -/
theorem placeDir_accounts {forkSize : Nat} {laid : DirWrite.Layout} {out : Format × Bytes × Nat × Nat × Nat}
    (h : Ready v L book) (hf : v.sb.Fitting) (hrun : placeDir ino forkSize laid v = .ok out v') :
    ∃ runs, Accounts (L.Names v.sb) (L.withBlocks (covered runs)) v book v' := by
  cases laid with
  | short bytes =>
    obtain ⟨-, rfl⟩ := EStateM.Result.ok.inj hrun
    refine ⟨[], ?_⟩
    rw [Ledger.withBlocks_nil]
    exact h.refl
  | blocks size blocks =>
    unfold placeDir at hrun
    simp only [get_bind_apply] at hrun
    obtain ⟨per, v1, hlift, hrun⟩ := bind_eq_ok.mp hrun
    obtain ⟨-, rfl⟩ := liftE_eq_ok.mp hlift
    obtain ⟨es, v1, halloc, hrun⟩ := bind_eq_ok.mp hrun
    obtain ⟨_, v2, hfill, hrun⟩ := bind_eq_ok.mp hrun
    obtain ⟨⟨format, fork, nb⟩, v3, hmap, hrun⟩ := bind_eq_ok.mp hrun
    obtain ⟨-, rfl⟩ := EStateM.Result.ok.inj hrun
    obtain ⟨runs, htook, htaken, hmaps⟩ := allocRuns_accounts (P := L.Names v.sb) h hf halloc
    obtain ⟨book1, h1, hto1⟩ := htook.next
    have hsb := htook.kept.sb
    obtain ⟨d, rfl, hsame⟩ := writeDirBlocks_ok (hsb ▸ hf) (fun r hr => hsb ▸ htaken.inAg r hr) hmaps hfill
    have hwritten := h1.written (hsb ▸ hf.addressable.sound) (hsb ▸ htaken.lacks) Set.subset_union_right hsame
    have hwritten := hwritten.of_bytes (P := L.Names v.sb) fun p hp => by rwa [hsb]
    obtain ⟨book2, h2, hto2⟩ := hwritten.next
    obtain ⟨tree, hmapped⟩ := mapFork_accounts h2 (show v1.sb.Fitting from hsb ▸ hf) hmap
    rw [Ledger.withBlocks_withBlocks, ← covered_append] at hmapped
    refine ⟨runs ++ tree, hto1 (hto2 (hmapped.of_bytes fun p hp => ?_))⟩
    exact (show L.Names v1.sb p by rwa [hsb]).mono (Ledger.le_withBlocks _ _)

/-! ## A directory's inode -/

/-- The forks of an inode that is parsed lie in it. -/
theorem dataForkSize_le {sb : Superblock} {a : Bytes} {i : Inode} (hs : sb.Sound) (hv5 : sb.isV5 = true)
    (hlen : a.length = sb.inodeSize) (h : Inode.parse sb ino a = .ok i) :
    CORE + Raw.dataForkSize a ≤ a.length := by
  have hsize := hs.inodeSize_ge
  unfold Inode.parse at h
  obtain ⟨_, -, h⟩ := except_bind_eq_ok.mp h
  obtain ⟨_, -, h⟩ := except_bind_eq_ok.mp h
  obtain ⟨core, hcore, h⟩ := except_bind_eq_ok.mp h
  obtain ⟨_, -, h⟩ := except_bind_eq_ok.mp h
  obtain ⟨_, -, h⟩ := except_bind_eq_ok.mp h
  obtain ⟨forks, hforks, -⟩ := except_bind_eq_ok.mp h
  rw [List.take_of_length_le hlen.le] at hcore hforks
  have hcore : core = CORE := by
    unfold Inode.coreLen at hcore
    rw [hv5] at hcore
    simp only [Bool.true_eq_false, and_false, if_false, and_true] at hcore
    split at hcore
    · exact (Except.ok.inj hcore).symm
    · cases hcore
  unfold Inode.splitForks at hforks
  unfold Raw.dataForkSize
  rw [hcore] at hforks
  simp only at hforks ⊢
  have hroom : CORE ≤ a.length := by
    unfold CORE
    omega
  split
  · omega
  · rename_i hne
    rw [if_neg hne] at hforks
    obtain ⟨_, hfit, -⟩ := except_bind_eq_ok.mp hforks
    have hfit := except_throwIf_eq_ok.mp hfit
    omega

theorem length_setDataFork {r r' fork : Bytes} {format : Format} (hcore : CORE ≤ r.length)
    (hroom : CORE + Raw.dataForkSize r ≤ r.length) (h : Raw.setDataFork r format fork = .ok r') :
    r'.length = r.length := by
  unfold Raw.setDataFork at h
  obtain ⟨_, hfit, h⟩ := except_bind_eq_ok.mp h
  have hfit := except_throwIf_eq_ok.mp hfit
  obtain rfl := Except.ok.inj h
  have hput : (putBe 1 r 5 format.code).length = r.length := length_putBe (by unfold CORE at hcore; omega)
  have hclear : (splice (putBe 1 r 5 format.code) CORE (List.replicate (Raw.dataForkSize r) 0)).length =
      r.length := by
    rw [length_splice (by rw [List.length_replicate]; omega), hput]
  rw [length_splice (by omega), hclear]

theorem length_setNextents {r : Bytes} {n : Nat} (h : CORE ≤ r.length) :
    (Raw.setNextents r n).length = r.length := by
  unfold CORE at h
  unfold Raw.setNextents put64 put32
  split
  · exact length_putBe (by omega)
  · exact length_putBe (by omega)

/-- Directory `ino` as it is on the device: its inode, and the runs of its fork, those of a B+tree
after the others. -/
structure DirAt (sb : Superblock) (d : Device) (ino : Nat) (runs : List (Nat × Nat)) : Prop where
  node : ∃ k b i, NodeAt sb ino k b i
  inAg : ∀ r ∈ runs, InOneAg sb r
  slot : ∃ a i es bs, SlotAt d sb ino a ∧ Inode.parse sb ino a = .ok i ∧
    Bmap.forkMap d sb i false = .ok (es, bs) ∧ runs = extentRuns es ++ bs.map (·, 1)

/-- A directory stays where its inode's bytes and its blocks' do. -/
theorem DirAt.sameOn {sb : Superblock} {runs : List (Nat × Nat)} {d d' : Device} (h : DirAt sb d ino runs)
    (hf : sb.Fitting) (hsame : Device.SameOn P d d')
    (hP : ∀ p, (Ledger.mk (covered runs) {ino}).Names sb p → P p) : DirAt sb d' ino runs := by
  obtain ⟨k, b, j, hnode⟩ := h.node
  obtain ⟨a, i, es, bs, hslot, hparse, hmap, rfl⟩ := h.slot
  have hexpand : expand (bs.map (·, 1)) = bs := by
    unfold expand
    rw [List.flatMap_map]
    exact List.flatMap_singleton' bs
  refine ⟨h.node, h.inAg, a, i, es, bs, ?_, hparse, ?_, rfl⟩
  · exact hslot.sameOn hf hnode hsame fun p _ hino => hP p (Or.inr hino)
  · refine forkMap_of_sameOn hf (fun r hr => h.inAg r (List.mem_append_right _ hr)) hmap
      (List.Perm.of_eq hexpand.symm) hsame fun p hp => hP p (Or.inl ?_)
    exact covered_append ▸ Or.inr hp.2

/-- A directory is written. -/
theorem writeDir_accounts {st : DirState} {runs : List (Nat × Nat)}
    (h : Ready v ((L.withInode ino).withBlocks (covered runs)) book) (hf : v.sb.Fitting)
    (hdir : DirAt v.sb v.dev ino runs) (hapart : runs.Pairwise (Apart Prod.fst fun r => r.1 + r.2))
    (hout : ∀ x ∈ covered runs, x ∉ L.blocks) (hnew : ino ∉ L.inodes)
    (hclear : ∀ k b i, NodeAt v.sb ino k b i → v.sb.agbToFsb k b ∉ L.blocks)
    (hrun : writeDir ino st v = .ok () v') : Accounts (L.Names v.sb) L v book v' := by
  have ha := hf.addressable
  have hs := ha.sound
  obtain ⟨k, b, j, hnode⟩ := hdir.node
  obtain ⟨a, i, es, bs, hslot, hparse, hmap, rfl⟩ := hdir.slot
  unfold writeDir at hrun
  rw [get_bind_apply] at hrun
  obtain ⟨i', v1, hlift, hrun⟩ := bind_eq_ok.mp hrun
  obtain ⟨hinode, rfl⟩ := liftE_eq_ok.mp hlift
  obtain rfl : i' = i := Except.ok.inj (hinode.symm.trans ((hslot.inode_eq hs).trans hparse))
  obtain ⟨-, hrun⟩ := act_throwIf_bind_eq_ok.mp hrun
  obtain ⟨freed, v2, hfree, hrun⟩ := bind_eq_ok.mp hrun
  rw [get_bind_apply] at hrun
  -- the blocks it had
  have hgone := freeFork_accounts (P := fun _ => True) h hf hmap ⟨hdir.inAg, hapart,
    Ledger.le_withBlocks _ _, Set.subset_union_right, hout⟩ hfree
  obtain ⟨raw, v3, hlift, hrun⟩ := bind_eq_ok.mp hrun
  obtain ⟨hraw, rfl⟩ := liftE_eq_ok.mp hlift
  have hsb2 := hgone.kept.sb
  have hslot2 : SlotAt v2.dev v2.sb ino a := hsb2 ▸ hslot.sameOn hf hnode hgone.kept.dev fun _ _ _ => trivial
  obtain rfl := hslot2.eq_of_readRaw hraw
  obtain ⟨book2, h2, hto2⟩ := (hgone.of_bytes (P := L.Names v.sb) fun _ _ => trivial).next
  -- and those it has now
  obtain ⟨laid, v4, hlift, hrun⟩ := bind_eq_ok.mp hrun
  obtain ⟨-, rfl⟩ := liftE_eq_ok.mp hlift
  obtain ⟨⟨format, fork, size, used, nextents⟩, v5, hplace, hrun⟩ := bind_eq_ok.mp hrun
  obtain ⟨got, hplaced⟩ := placeDir_accounts h2 (hsb2 ▸ hf) hplace
  have hplaced := hplaced.of_bytes (P := L.Names v.sb) fun p hp =>
    (show L.Names v2.sb p by rwa [hsb2]).mono (Ledger.le_withInode _ _)
  obtain ⟨book5, h5, hto5⟩ := hplaced.next
  have hsb5 : v5.sb = v.sb := hplaced.kept.sb.trans hsb2
  -- its inode
  obtain ⟨raw1, v6, hlift, hrun⟩ := bind_eq_ok.mp hrun
  obtain ⟨hset, rfl⟩ := liftE_eq_ok.mp hlift
  obtain ⟨t, v7, hnow, hrun⟩ := bind_eq_ok.mp hrun
  have hstill := now_still.ok hnow
  obtain ⟨raw2, v8, hlift, hrun⟩ := bind_eq_ok.mp hrun
  obtain ⟨htouch, rfl⟩ := liftE_eq_ok.mp hlift
  have hcore : CORE ≤ raw.length := by
    have := hs.inodeSize_ge
    rw [hslot.length_eq]
    unfold CORE
    omega
  have hlen1 := length_setDataFork hcore (dataForkSize_le hs hf.isV5 hslot.length_eq hparse) hset
  have hput : ∀ {w o x : Nat} {r : Bytes}, r.length = raw.length → o + w ≤ CORE →
      (putBe w r o x).length = raw.length := fun hr ho => by rw [length_putBe (by omega), hr]
  have hlen2 : raw2.length = v.sb.inodeSize := by
    refine length_touch hs (Eq.trans ?_ hslot.length_eq) htouch
    simp only [Raw.setNlink, Raw.setNblocks, Raw.setSize, put32, put64]
    refine hput (hput ?_ (by decide)) (by decide)
    rw [length_setNextents (by rw [hput hlen1 (by decide)]; exact hcore), hput hlen1 (by decide)]
  obtain ⟨book7, h7, hto7⟩ := (h5.still (P := L.Names v.sb) hstill).next
  have hsb7 : v7.sb = v.sb := hstill.sb.trans hsb5
  have hwritten := h7.inode (hsb7 ▸ hf) (hsb7 ▸ hnode)
    (hsb7 ▸ hnode.lacks hf hnew (hclear k b j hnode)) (Or.inl rfl) (hsb7 ▸ hlen2) hrun
  refine (hto2 (hto5 (hto7 (hwritten.of_bytes fun p hp => by rwa [hsb7])))).mono ha ?_
  exact Ledger.le_trans (Ledger.le_withInode _ _) (Ledger.le_withBlocks _ _)

/-! ## All that changed -/

/-- What directories have, each given with the runs of its fork: their inodes and blocks. -/
def dirsLedger (dirs : List (Nat × List (Nat × Nat))) : Ledger :=
  ⟨covered (dirs.flatMap (·.2)), {ino | ino ∈ dirs.map (·.1)}⟩

/-- Directories in order: they are on the device, none has what another has, and what they have is
minded and entered in the books. -/
structure DirsInOrder (v : Volume) (book : Book) (dirs : List (Nat × List (Nat × Nat))) : Prop where
  fitting : v.sb.Fitting
  placed : ∀ p ∈ dirs, DirAt v.sb v.dev p.1 p.2
  apart : (dirs.flatMap (·.2)).Pairwise (Apart Prod.fst fun r => r.1 + r.2)
  inodes : (dirs.map (·.1)).Nodup
  clear : ∀ p ∈ dirs, ∀ k b i, NodeAt v.sb p.1 k b i →
    v.sb.agbToFsb k b ∉ covered (dirs.flatMap (·.2))
  ready : Ready v (dirsLedger dirs) book

theorem dirsLedger_cons {runs : List (Nat × Nat)} {dirs : List (Nat × List (Nat × Nat))} :
    dirsLedger ((ino, runs) :: dirs) = ((dirsLedger dirs).withInode ino).withBlocks (covered runs) := by
  unfold dirsLedger Ledger.withInode Ledger.withBlocks
  rw [List.flatMap_cons, covered_append, Set.union_comm]
  congr 1
  ext x
  exact List.mem_cons

/-- The first of them is written, and the others are still in order. -/
theorem DirsInOrder.written {st : DirState} {runs : List (Nat × Nat)} {dirs : List (Nat × List (Nat × Nat))}
    (h : DirsInOrder v book ((ino, runs) :: dirs)) (hrun : writeDir ino st v = .ok () v') :
    ∃ book', ReflTransGen Stepped (v, book) (v', book') ∧ DirsInOrder v' book' dirs := by
  have happend : ((ino, runs) :: dirs).flatMap (·.2) = runs ++ dirs.flatMap (·.2) := List.flatMap_cons
  have hready := h.ready
  rw [dirsLedger_cons] at hready
  have hapart := h.apart
  rw [happend] at hapart
  obtain ⟨hruns, hrest, hbetween⟩ := List.pairwise_append.mp hapart
  obtain ⟨hnew, hnodup⟩ := List.nodup_cons.mp h.inodes
  have hsub : covered (dirs.flatMap (·.2)) ⊆ covered (((ino, runs) :: dirs).flatMap (·.2)) := by
    rw [happend, covered_append]
    exact Set.subset_union_right
  have hwritten := writeDir_accounts hready h.fitting (h.placed _ List.mem_cons_self) hruns (fun x hx hL => by
    obtain ⟨r, hr, hlo, hhi⟩ := hx
    obtain ⟨r', hr', hlo', hhi'⟩ := hL
    have hmeet := hbetween r hr r' hr'
    simp only [Apart] at hmeet
    omega) hnew (fun k b i hn hL => h.clear _ List.mem_cons_self k b i hn (hsub hL)) hrun
  obtain ⟨book', hsteps, he⟩ := hwritten.follows
  have hsb := hwritten.kept.sb
  refine ⟨book', hsteps, hsb ▸ h.fitting, fun p hp => ?_, hrest, hnodup, fun p hp k b i hn hL => ?_,
    hwritten.kept.minds, he⟩
  · rw [hsb]
    refine (h.placed p (List.mem_cons_of_mem _ hp)).sameOn h.fitting hwritten.kept.dev fun q hq => hq.mono ⟨?_, ?_⟩
    · rintro x ⟨r, hr, hx⟩
      exact ⟨r, List.mem_flatMap.mpr ⟨p, hp, hr⟩, hx⟩
    · rintro x rfl
      exact List.mem_map_of_mem hp
  · rw [hsb] at hn hL
    exact h.clear p (List.mem_cons_of_mem _ hp) k b i hn (hsub hL)

/-- The books follow all of it. -/
theorem DirsInOrder.writeDirs {entries : List (Nat × DirState)} : ∀ {v : Volume} {book : Book}
    {dirs : List (Nat × List (Nat × Nat))}, DirsInOrder v book dirs →
      dirs.map (·.1) = entries.map (·.1) → writeDirs entries v = .ok () v' →
        ∃ book', ReflTransGen Stepped (v, book) (v', book') := by
  induction entries with
  | nil =>
    intro v book dirs _ _ hrun
    obtain ⟨-, rfl⟩ := EStateM.Result.ok.inj hrun
    exact ⟨book, .refl⟩
  | cons e entries ih =>
    intro v book dirs h hkeys hrun
    obtain ⟨ino, st⟩ := e
    cases dirs with
    | nil => cases hkeys
    | cons p dirs =>
      obtain ⟨ino', runs⟩ := p
      obtain ⟨rfl, htail⟩ := List.cons.inj hkeys
      unfold Volume.writeDirs at hrun
      obtain ⟨_, v1, hone, hrun⟩ := bind_eq_ok.mp hrun
      obtain ⟨book1, hsteps, h1⟩ := h.written hone
      obtain ⟨book2, hsteps'⟩ := ih h1 htail hrun
      exact ⟨book2, hsteps.trans hsteps'⟩

end

end Volume

end FioXfs
