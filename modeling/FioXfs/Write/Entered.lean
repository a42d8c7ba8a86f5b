import FioXfs.Write.Books
import FioXfs.Write.NewInode
set_option autoImplicit false

/-!
# What the books have of a ledger

A ledger is entered when the blocks it names are owned in the books, and each group that is not in
memory is read as its books say whatever comes of the bytes the ledger names.  Blocks are taken and
given back, and written to, in steps that the books follow.
-/

namespace FioXfs

open FioXfs.Lib FioXfs.Alloc FioXfs.Bmap Relation

namespace Volume

/-! ## Entered in the books -/

/-- A group is read as the books have it. -/
structure ReadAs (sb : Superblock) (ag : Ag) (own : Finset Nat) (trees : Nat) : Prop where
  parted : ∀ b, freeAt ag.free b + (ag.agfl ++ ag.oldTreeBlocks).count b + (if b ∈ own then 1 else 0) =
    within 0 ag.len b
  trees_eq : trees = inoNeed sb ag.chunks

/-- The books are right, and have the ledger's blocks as owned; a group that is not in memory is
read as they say, whatever becomes of what the ledger names, and that is not in its headers. -/
structure Entered (v : Volume) (L : Ledger) (book : Book) : Prop where
  booked : Booked v book
  owned : ∀ k < v.sb.agCount, ∀ b < v.sb.agBlocks, v.sb.agbToFsb k b ∈ L.blocks → b ∈ book.own k
  unread : ∀ k < v.sb.agCount, v.ag? k = none → ∀ d ag,
    Device.SameOn (fun p => v.sb.byteAg p = k ∧ ¬L.Names v.sb p) v.dev d →
      Alloc.load d v.sb k = .ok ag → ReadAs v.sb ag (book.own k) (book.trees k)
  heads : ∀ k < v.sb.agCount, v.ag? k = none → ∀ n, n = 1 ∨ n = 2 → ∀ p, headerAt v.sb k n ≤ p →
    p < headerAt v.sb k n + v.sb.sect → ¬L.Names v.sb p

/-- `v'` comes of `p` in steps that the books follow, with the ledger entered in them. -/
def Follows (L : Ledger) (p : Volume × Book) (v' : Volume) : Prop :=
  ∃ book', ReflTransGen Stepped p (v', book') ∧ Entered v' L book'

section
variable {v v' v'' : Volume} {sb : Superblock} {L L' : Ledger} {book : Book} {k : Nat} {ag ag' : Ag}
  {d : Device}

theorem sb_of_steps {p q : Volume × Book} (h : ReflTransGen Stepped p q) : q.1.sb = p.1.sb := by
  induction h with
  | refl => rfl
  | tail _ hstep ih => exact hstep.sb_eq.trans ih

theorem Follows.sb_eq {p : Volume × Book} (h : Follows L p v') : v'.sb = p.1.sb := by
  obtain ⟨_, hsteps, -⟩ := h
  exact sb_of_steps hsteps

theorem Entered.refl (h : Entered v L book) : Follows L (v, book) v := ⟨book, .refl, h⟩

theorem Follows.trans {p : Volume × Book} (h : Follows L p v')
    (h' : ∀ book', Entered v' L book' → Follows L' (v', book') v'') : Follows L' p v'' := by
  obtain ⟨book', hsteps, he⟩ := h
  obtain ⟨book'', hsteps', he'⟩ := h' book' he
  exact ⟨book'', hsteps.trans hsteps', he'⟩

/-- Less of the ledger is entered too. -/
theorem Entered.mono (h : Entered v L' book) (hle : L ≤ L') : Entered v L book where
  booked := h.booked
  owned k hk b hb hL := h.owned k hk b hb (hle.1 hL)
  unread k hk hnone d ag hd hload :=
    h.unread k hk hnone d ag (hd.mono fun _ hp => ⟨hp.1, fun hL => hp.2 (hL.mono hle)⟩) hload
  heads k hk hnone n hn p hlo hhi hL := h.heads k hk hnone n hn p hlo hhi (hL.mono hle)

theorem Follows.mono {p : Volume × Book} (h : Follows L' p v') (hle : L ≤ L') : Follows L p v' := by
  obtain ⟨book', hsteps, he⟩ := h
  exact ⟨book', hsteps, he.mono hle⟩

/-- A byte of a group's headers is one of the group. -/
theorem byteAg_header (h : Spacious sb) (hk : k < sb.agCount) {n p : Nat} (hn : n = 1 ∨ n = 2)
    (hlo : headerAt sb k n ≤ p) (hhi : p < headerAt sb k n + sb.sect) : sb.byteAg p = k := by
  obtain ⟨⟨hstart, len, hlen, hend⟩, -⟩ := inGroup_header h hk hn
  have hbs := h.sound.blockSize_pos
  have hle := (Superblock.agLen_le hlen).1
  simp only at hstart hend
  unfold Superblock.byteAg
  rw [Nat.div_div_eq_div_mul]
  refine Nat.div_eq_of_lt_le ?_ ?_
  · rw [Nat.mul_comm sb.blockSize, ← Nat.mul_assoc]
    omega
  · have hmul : (k * sb.agBlocks + len) * sb.blockSize ≤ (k + 1) * (sb.blockSize * sb.agBlocks) := by
      rw [Nat.mul_comm sb.blockSize, ← Nat.mul_assoc, Nat.succ_mul]
      exact Nat.mul_le_mul_right _ (Nat.add_le_add_left hle _)
    omega

/-! ## The kinds of steps -/

/-- A group is changed in memory, by an operation the books know. -/
theorem Entered.group {own : Finset Nat} (h : Entered v L book) (ha : v.sb.Addressable)
    (hag : v.ag? k = some ag) (hstep : AccStep v.sb (ag, book.own k) (ag', own))
    (hown : ∀ b < v.sb.agBlocks, v.sb.agbToFsb k b ∈ L'.blocks → b ∈ own)
    (hother : ∀ j < v.sb.agCount, j ≠ k → L'.SubOn v.sb j L) : Follows L' (v, book) (v.putAg k ag') := by
  have hput : ∀ j, (v.putAg k ag').ag? j = if j = k then some ag' else v.ag? j := fun j =>
    ag?_putAg (isSome_of_ag? hag)
  have habsent : ∀ {j}, (v.putAg k ag').ag? j = none → j ≠ k ∧ v.ag? j = none := by
    intro j hnone
    rw [hput] at hnone
    split at hnone
    · cases hnone
    · rename_i hjk
      exact ⟨hjk, hnone⟩
  have hgroup := Stepped.group hag hstep
  refine ⟨_, .single hgroup, h.booked.stepped hgroup, fun j hj b hb hL => ?_,
    fun j hj hnone d a hd hload => ?_, fun j hj hnone n hn p hlo hhi hL => ?_⟩
  · by_cases hjk : j = k
    · subst hjk
      simp only [Book.enter, Function.update_self]
      exact hown b hb hL
    · simp only [Book.enter, Function.update_of_ne hjk]
      exact h.owned j hj b hb ((hother j hj hjk).blocks b hb hL)
  · obtain ⟨hjk, hnone⟩ := habsent hnone
    simp only [Book.enter, Function.update_of_ne hjk]
    refine h.unread j hj hnone d a (hd.mono fun p hp => ⟨hp.1, fun hL => hp.2 ?_⟩) hload
    exact (hother j hj hjk).names ha hp.1 hL
  · obtain ⟨hjk, hnone⟩ := habsent hnone
    have hp := byteAg_header h.booked.spacious hj hn hlo hhi
    exact h.heads j hj hnone n hn p hlo hhi ((hother j hj hjk).names ha hp hL)

/-- The device is written, but not to a group that is to be read yet. -/
theorem Entered.dev (h : Entered v L book)
    (hd : Device.SameOn (fun p => v.ag? (v.sb.byteAg p) = none ∧ ¬L.Names v.sb p) v.dev d) :
    Follows L (v, book) { v with dev := d } := by
  have hstep : Stepped (v, book) ({ v with dev := d }, book) := by
    refine .elsewhere rfl (fun _ => rfl) fun k hk hnone => readHeaders_congr fun n hn => ?_
    refine hd.readAt_eq fun p hlo hhi => ⟨?_, h.heads k hk hnone n hn p hlo hhi⟩
    rw [byteAg_header h.booked.spacious hk hn hlo hhi]
    exact hnone
  refine ⟨book, .single hstep, h.booked.stepped hstep, h.owned, fun k hk hnone d' ag hd' hload => ?_, h.heads⟩
  refine h.unread k hk hnone d' ag ((hd.mono fun p hp => ⟨?_, hp.2⟩).trans hd') hload
  rw [hp.1]
  exact hnone

/-- Nothing is changed that the books are of. -/
theorem Entered.still (h : Entered v L book) (hs : Still v v') : Follows L (v, book) v' := by
  have hstep : Stepped (v, book) (v', book) :=
    .elsewhere hs.sb hs.ags fun k _ _ => by rw [hs.dev]
  refine ⟨book, .single hstep, h.booked.stepped hstep, ?_, fun k hk hnone d ag hd hload => ?_, ?_⟩
  · rw [hs.sb]
    exact h.owned
  · rw [hs.sb, hs.dev] at hd
    rw [hs.sb] at hk hload ⊢
    exact h.unread k hk (hs.ags k ▸ hnone) d ag hd hload
  · rw [hs.sb]
    exact fun k hk hnone => h.heads k hk (hs.ags k ▸ hnone)

/-- A group is read in. -/
theorem Entered.load (h : Entered v L book) (hk : k < v.sb.agCount) (hrun : loadAg k v = .ok () v') :
    Follows L (v, book) v' := by
  cases hag : v.ag? k with
  | some ag =>
    rw [loadAg_of_loaded hag] at hrun
    obtain ⟨-, rfl⟩ := EStateM.Result.ok.inj hrun
    exact h.refl
  | none =>
    obtain ⟨hdev, hsb, -, hothers, ag, hnew, hfrom⟩ := loadAg_eq_ok hrun
    have hload : Alloc.load v.dev v.sb k = .ok ag := by
      rcases hfrom with hold | ⟨-, hfrom⟩
      · rw [hag] at hold
        cases hold
      · exact hfrom
    have hread := h.unread k hk hag v.dev ag (.refl _ _) hload
    have hstep : Stepped (v, book) (v', book) := .load hk hag hload hrun hread.parted hread.trees_eq
    have hwas : ∀ {j}, v'.ag? j = none → v.ag? j = none := by
      intro j hnone
      by_cases hjk : j = k
      · rw [hjk, hag]
      · rw [← hothers j hjk, hnone]
    refine ⟨book, .single hstep, h.booked.stepped hstep, ?_, fun j hj hnone d a hd hl => ?_, ?_⟩
    · rw [hsb]
      exact h.owned
    · rw [hsb, hdev] at hd
      rw [hsb] at hj hl ⊢
      exact h.unread j hj (hwas hnone) d a hd hl
    · rw [hsb]
      exact fun j hj hnone => h.heads j hj (hwas hnone)

end

/-! ## Blocks -/

section
variable {v v' : Volume} {L L' : Ledger} {book : Book} {k near : Nat} {ag ag' : Ag}
  {runs : List (Nat × Nat)}

/-- A run is taken of a group in memory. -/
theorem Entered.taken {want s n : Nat} (h : Entered v L book) (ha : v.sb.Addressable)
    (hag : v.ag? k = some ag) (hrun : alloc want near ag = .ok (some (s, n)) ag') :
    Follows (L.withBlocks (covered [(v.sb.agbToFsb k s, n)])) (v, book) (v.putAg k ag') := by
  obtain ⟨hk, hheld⟩ := h.booked.loaded k ag hag
  have hspace := hheld.parted.space
  have hal := (alloc_ok hspace.freeOk hrun).1
  have hend := carved_inside hspace (carved_of_allocated hspace hal) (s, n) List.mem_cons_self
  have hlen := (Superblock.agLen_le hheld.agLen).1
  have hmem : ∀ j < v.sb.agCount, ∀ b < v.sb.agBlocks,
      v.sb.agbToFsb j b ∈ covered [(v.sb.agbToFsb k s, n)] ↔ j = k ∧ s ≤ b ∧ b < s + n :=
    fun j hj b hb => agbToFsb_mem_covered ha hk hj hb hal.pos (hend.trans hlen)
  refine h.group ha hag (.alloc hrun) (fun b hb hL => ?_) fun j hj hne => ⟨fun b hb hL => ?_, fun _ _ hL => hL⟩
  · rw [Finset.mem_union, Finset.mem_Ico]
    exact hL.imp (h.owned k hk b hb) fun hx => ((hmem k hk b hb).mp hx).2
  · exact hL.resolve_right fun hx => hne ((hmem j hj b hb).mp hx).1

theorem still_putAg_self (hag : v.ag? k = some ag) : Still v (v.putAg k ag) := by
  refine ⟨rfl, rfl, fun j => ?_⟩
  rw [ag?_putAg (isSome_of_ag? hag)]
  split
  · rename_i hjk
    rw [hjk, hag]
  · rfl

/-- The ledger with nothing more. -/
theorem Entered.none (h : Entered v L book) : Follows (L.withBlocks (covered [])) (v, book) v := by
  rw [Ledger.withBlocks_nil]
  exact h.refl

/-- Runs of one group. -/
theorem allocFrom_follows {fuel : Nat} : ∀ {left : Nat} {L : Ledger} {v : Volume} {ag : Ag} {book : Book}
    {out : List (Nat × Nat) × Nat}, v.ag? k = some ag → Entered v L book → v.sb.Addressable →
      allocFrom k near fuel left v = .ok out v' → Follows (L.withBlocks (covered out.1)) (v, book) v' := by
  induction fuel with
  | zero =>
    intro left L v ag book out hag h ha hrun
    cases left with
    | zero =>
      obtain ⟨rfl, rfl⟩ := EStateM.Result.ok.inj hrun
      exact h.none
    | succ left => cases hrun
  | succ fuel ih =>
    intro left L v ag book out hag h ha hrun
    cases left with
    | zero =>
      obtain ⟨rfl, rfl⟩ := EStateM.Result.ok.inj hrun
      exact h.none
    | succ left =>
      unfold allocFrom at hrun
      obtain ⟨found, v1, hone, hrun⟩ := bind_eq_ok.mp hrun
      obtain ⟨ag1, halloc, rfl⟩ := (onAg_eq_ok hag).mp hone
      cases found with
      | none =>
        obtain ⟨rfl, rfl⟩ := EStateM.Result.ok.inj hrun
        obtain rfl := alloc_none halloc
        exact (h.still (still_putAg_self hag)).trans fun _ h1 => h1.none
      | some r =>
        obtain ⟨s, l⟩ := r
        simp only [get_bind_apply] at hrun
        obtain ⟨got, v2, hrest, hrun⟩ := bind_eq_ok.mp hrun
        obtain ⟨rfl, rfl⟩ := EStateM.Result.ok.inj hrun
        refine (h.taken ha hag halloc).trans fun book1 h1 => ?_
        have hmore := ih (ag?_putAg_self hag) h1 ha hrest
        rwa [Ledger.withBlocks_withBlocks, ← covered_cons] at hmore

/-- Runs of one group after another. -/
theorem allocAcross_follows {pref : Nat} {agnos : List Nat} : ∀ {left : Nat} {L : Ledger} {v : Volume}
    {book : Book} {out : List (Nat × Nat) × Nat}, Entered v L book → v.sb.Addressable →
      (∀ k ∈ agnos, k < v.sb.agCount) → allocAcross pref near agnos left v = .ok out v' →
        Follows (L.withBlocks (covered out.1)) (v, book) v' := by
  induction agnos with
  | nil =>
    intro left L v book out h _ _ hrun
    obtain ⟨rfl, rfl⟩ := EStateM.Result.ok.inj hrun
    exact h.none
  | cons k agnos ih =>
    intro left L v book out h ha hlt hrun
    have hk := hlt k List.mem_cons_self
    unfold allocAcross at hrun
    split at hrun
    · obtain ⟨rfl, rfl⟩ := EStateM.Result.ok.inj hrun
      exact h.none
    · obtain ⟨_, v1, hload, hrun⟩ := bind_eq_ok.mp hrun
      obtain ⟨got, v2, hfrom, hrun⟩ := bind_eq_ok.mp hrun
      obtain ⟨more, v3, hrest, hrun⟩ := bind_eq_ok.mp hrun
      obtain ⟨rfl, rfl⟩ := EStateM.Result.ok.inj hrun
      obtain ⟨-, hsb1, -, -, ag, hag, -⟩ := loadAg_eq_ok hload
      have hfirst := (h.load hk hload).trans fun book1 h1 => allocFrom_follows hag h1 (hsb1 ▸ ha) hfrom
      have hsb2 : v2.sb = v.sb := hfirst.sb_eq
      refine hfirst.trans fun book2 h2 => ?_
      have hmore := ih h2 (hsb2 ▸ ha) (fun j hj => hsb2 ▸ hlt j (List.mem_cons_of_mem _ hj)) hrest
      rwa [Ledger.withBlocks_withBlocks, ← covered_append] at hmore

/-- All the blocks that are wanted. -/
theorem allocBlocks_follows {pref n : Nat} (h : Entered v L book) (ha : v.sb.Addressable)
    (hrun : allocBlocks pref n near v = .ok runs v') :
    Follows (L.withBlocks (covered runs)) (v, book) v' := by
  unfold allocBlocks at hrun
  simp only [get_bind_apply] at hrun
  obtain ⟨agnos, v1, hord, hrun⟩ := bind_eq_ok.mp hrun
  obtain ⟨hagnos, rfl⟩ := liftE_eq_ok.mp hord
  obtain ⟨got, v2, hgot, hrun⟩ := bind_eq_ok.mp hrun
  obtain ⟨got, left⟩ := got
  have hfollows := allocAcross_follows h ha
    (fun k hk => mem_agOrder ha.sound.agCount_pos hagnos hk) hgot
  by_cases hleft : 0 < left
  · simp only [if_pos hleft] at hrun
    obtain ⟨_, v3, -, hrun⟩ := bind_eq_ok.mp hrun
    cases hrun
  · simp only [if_neg hleft] at hrun
    obtain ⟨rfl, rfl⟩ := EStateM.Result.ok.inj hrun
    exact hfollows

/-- A mapping is recorded, or taken out. -/
theorem Entered.onAg {α : Type} {x : Act Ag α} {a : α} (h : Entered v L book) (ha : v.sb.Addressable)
    (hstep : ∀ ag ag' own, x ag = .ok a ag' → AccStep v.sb (ag, own) (ag', own))
    (hrun : onAg k x v = .ok a v') : Follows L (v, book) v' := by
  obtain ⟨ag, ag', hag, hx, rfl⟩ := onAg_ok hrun
  have hk := (h.booked.loaded k ag hag).1
  exact h.group ha hag (hstep ag ag' _ hx) (h.owned k hk) fun j _ _ => .refl _ _ _

theorem rmapExtent_follows {fsb len owner offset : Nat} (h : Entered v L book) (ha : v.sb.Addressable)
    (hrun : rmapExtent fsb len owner offset v = .ok () v') : Follows L (v, book) v' :=
  h.onAg ha (fun _ _ _ hx => .rmapAdd hx) hrun

theorem recordRuns_follows {ino : Nat} : ∀ {runs : List (Nat × Nat)} {lblk : Nat} {v : Volume}
    {book : Book} {es : List Extent}, Entered v L book → v.sb.Addressable →
      recordRuns ino lblk runs v = .ok es v' → Follows L (v, book) v' := by
  intro runs
  induction runs with
  | nil =>
    intro lblk v book es h _ hrun
    obtain ⟨-, rfl⟩ := EStateM.Result.ok.inj hrun
    exact h.refl
  | cons r runs ih =>
    intro lblk v book es h ha hrun
    obtain ⟨fsb, len⟩ := r
    obtain ⟨_, v1, hone, hrun⟩ := bind_eq_ok.mp hrun
    obtain ⟨rest, v2, hrest, hrun⟩ := bind_eq_ok.mp hrun
    obtain ⟨-, rfl⟩ := EStateM.Result.ok.inj hrun
    have hfirst := rmapExtent_follows h ha hone
    exact hfirst.trans fun book1 h1 => ih h1 (hfirst.sb_eq ▸ ha) hrest

theorem recordBmbt_follows {ino : Nat} : ∀ {runs : List (Nat × Nat)} {v : Volume} {book : Book},
    Entered v L book → v.sb.Addressable → recordBmbt ino runs v = .ok () v' →
      Follows L (v, book) v' := by
  intro runs
  induction runs with
  | nil =>
    intro v book h _ hrun
    obtain ⟨-, rfl⟩ := EStateM.Result.ok.inj hrun
    exact h.refl
  | cons r runs ih =>
    intro v book h ha hrun
    obtain ⟨fsb, len⟩ := r
    obtain ⟨_, v1, hone, hrun⟩ := bind_eq_ok.mp hrun
    have hfirst := rmapExtent_follows h ha hone
    exact hfirst.trans fun book1 h1 => ih h1 (hfirst.sb_eq ▸ ha) hrun

/-- A run that leaves the ledger is given back. -/
theorem release_follows {fsb len owner : Nat} (h : Entered v L' book) (hf : v.sb.Fitting)
    (hl : Leaving v.sb L L' [(fsb, len)]) (hrun : release fsb len owner v = .ok () v') :
    Follows L (v, book) v' := by
  have ha := hf.addressable
  obtain ⟨k, hk, s, hat, hagb, hpos, hend⟩ := (hl.inAg _ List.mem_cons_self).fsbToAgb hf
  simp only at hat hagb hpos hend
  subst hat
  unfold release at hrun
  simp only [get_bind_apply, hagb] at hrun
  obtain ⟨_, v1, hload, hrun⟩ := bind_eq_ok.mp hrun
  obtain ⟨_, v2, hfree, hrun⟩ := bind_eq_ok.mp hrun
  have hloaded := h.load hk hload
  have hsb1 : v1.sb = v.sb := hloaded.sb_eq
  have hmem : ∀ j < v1.sb.agCount, ∀ b < v1.sb.agBlocks,
      v1.sb.agbToFsb j b ∈ covered [(v.sb.agbToFsb k s, len)] ↔ j = k ∧ s ≤ b ∧ b < s + len := by
    rw [hsb1]
    exact fun j hj b hb => agbToFsb_mem_covered ha hk hj hb hpos hend
  have hfreed : Follows L (v, book) v2 := hloaded.trans fun book1 h1 => by
    obtain ⟨ag, ag', hag, hx, rfl⟩ := onAg_ok hfree
    have hk1 : k < v1.sb.agCount := hsb1 ▸ hk
    refine h1.group (hsb1 ▸ ha) hag (.freeExtent hx fun b hb => ?_) (fun b hb hL => ?_)
      fun j _ _ => .of_le hl.le
    · obtain ⟨hlo, hhi⟩ := Finset.mem_Ico.mp hb
      have hb' : b < v1.sb.agBlocks := by
        rw [hsb1]
        omega
      exact h1.owned k hk1 b hb' (hl.within ((hmem k hk1 b hb').mpr ⟨rfl, hlo, hhi⟩))
    · refine Finset.mem_sdiff.mpr ⟨h1.owned k hk1 b hb (hl.le.1 hL), fun hin => ?_⟩
      exact hl.out _ ((hmem k hk1 b hb).mpr ⟨rfl, Finset.mem_Ico.mp hin⟩) hL
  have hsb2 : v2.sb = v.sb := hfreed.sb_eq
  refine hfreed.trans fun book2 h2 => h2.onAg (hsb2 ▸ ha) (fun _ _ _ hx => ?_) hrun
  rw [hsb2]
  exact .rmapRemove hx

/-- Runs that leave the ledger are given back. -/
theorem releaseAll_follows {owner : Nat} : ∀ {runs : List (Nat × Nat)} {L' : Ledger} {v : Volume}
    {book : Book}, Entered v L' book → v.sb.Fitting → Leaving v.sb L L' runs →
      releaseAll owner runs v = .ok () v' → Follows L (v, book) v' := by
  intro runs
  induction runs with
  | nil =>
    intro L' v book h _ hl hrun
    obtain ⟨-, rfl⟩ := EStateM.Result.ok.inj hrun
    exact h.refl.mono hl.le
  | cons r runs ih =>
    intro L' v book h hf hl hrun
    obtain ⟨hone, hrest⟩ := hl.cons
    obtain ⟨fsb, len⟩ := r
    obtain ⟨_, v1, hfirst, hrun⟩ := bind_eq_ok.mp hrun
    have hfollows := release_follows h hf hone hfirst
    have hsb1 : v1.sb = v.sb := hfollows.sb_eq
    exact hfollows.trans fun book1 h1 => ih h1 (hsb1 ▸ hf) (hsb1 ▸ hrest) hrun

end

end Volume

end FioXfs
