import FioXfs.Write.Placing
set_option autoImplicit false

/-!
# The superblock's counters

A flush sums the headers of every group, in memory or not.  With books kept of who owns
the blocks of each group, the sum changes by what was given out and by nothing else.
-/

namespace FioXfs

open FioXfs.Lib FioXfs.Alloc Finset

namespace Volume

/-! ## The groups in a flush -/

section
variable {v v' : Volume} {book : Book}

/-- Rebuilding the groups that changed leaves each as its books say, and writes in those
groups only. -/
theorem rebuildAgs_ok : ∀ {agnos : List Nat} {v v' : Volume} {writes : List (Nat × Bytes)},
    Booked v book → rebuildAgs v.sb agnos v = .ok writes v' →
    Booked v' book ∧ v'.dev = v.dev ∧ v'.sb = v.sb ∧ (∀ k, v'.ag? k = none ↔ v.ag? k = none) ∧
      (∀ k ag, v'.ag? k = some ag → (k ∈ agnos ∨ ∃ old, v.ag? k = some old ∧ old.dirty = false) →
        ag.dirty = false) ∧
      ∀ w ∈ writes, ∃ k < v.sb.agCount, v.ag? k ≠ none ∧ InGroup v.sb k (w.1, w.2.length) := by
  intro agnos
  induction agnos with
  | nil =>
      intro v v' writes h hrun
      obtain ⟨rfl, rfl⟩ := EStateM.Result.ok.inj hrun
      refine ⟨h, rfl, rfl, fun _ => Iff.rfl, fun k ag hag hor => ?_, fun w hw => by cases hw⟩
      rcases hor with hmem | ⟨old, hold, hclean⟩
      · cases hmem
      · rw [hag] at hold
        rwa [Option.some.inj hold]
  | cons agno agnos ih =>
      intro v v' writes h hrun
      unfold rebuildAgs at hrun
      obtain ⟨w, v1, hgw, hrun⟩ := bind_eq_ok.mp hrun
      obtain ⟨w', hw'⟩ : ∃ w', v.w = some w' := by
        unfold getWriter at hgw
        cases hw : v.w with
        | none => simp [hw] at hgw
        | some w' => exact ⟨w', rfl⟩
      rw [getWriter_apply hw'] at hgw
      obtain ⟨rfl, rfl⟩ := EStateM.Result.ok.inj hgw
      cases hget : w'.ags.get? agno with
      | none =>
          simp only [hget] at hrun
          obtain ⟨h1, h2, h3, h4, h5, h6⟩ := ih h hrun
          refine ⟨h1, h2, h3, h4, fun k ag hag hor => h5 k ag hag ?_, h6⟩
          rcases hor with hmem | hor
          · rcases List.mem_cons.mp hmem with rfl | hmem
            · have : v.ag? k = none := by simp [ag?, hw', hget]
              rw [(h4 k).mpr this] at hag
              cases hag
            · exact Or.inl hmem
          · exact Or.inr hor
      | some ag =>
          simp only [hget] at hrun
          have hag : v.ag? agno = some ag := ag?_eq_some.mpr ⟨w', hw', hget⟩
          by_cases hd : ag.dirty = true
          · simp only [hd, if_true] at hrun
            obtain ⟨ws, v2, hon, hrun⟩ := bind_eq_ok.mp hrun
            obtain ⟨rest, v3, hrest, hrun⟩ := bind_eq_ok.mp hrun
            obtain ⟨rfl, rfl⟩ := EStateM.Result.ok.inj hrun
            obtain ⟨ag', hreb, rfl⟩ := (onAg_eq_ok hag).mp hon
            obtain ⟨hin, hheld⟩ := h.loaded agno ag hag
            obtain ⟨hheld', hclean, hws⟩ := hheld.rebuilt h.spacious.sound hreb
            have hput : ∀ k, (v.putAg agno ag').ag? k = if k = agno then some ag' else v.ag? k :=
              fun k => ag?_putAg (isSome_of_ag? hag)
            have hbooked : Booked (v.putAg agno ag') book := by
              have hst := h.stepped (Stepped.group hag (AccStep.rebuild hreb))
              have hsame : book.enter agno (book.own agno) (inoNeed v.sb ag'.chunks) = book := by
                unfold Book.enter
                rw [← hheld'.trees_eq, Function.update_eq_self, Function.update_eq_self]
              rwa [hsame] at hst
            obtain ⟨h1, h2, h3, h4, h5, h6⟩ := ih hbooked hrest
            have hnone : ∀ k, (v.putAg agno ag').ag? k = none ↔ v.ag? k = none := fun k => by
              rw [hput]
              split
              · rename_i hk
                rw [hk, hag]
                simp
              · rfl
            refine ⟨h1, h2, h3, fun k => (h4 k).trans (hnone k), fun k ag1 hag1 hor => ?_,
              fun x hx => ?_⟩
            · refine h5 k ag1 hag1 ?_
              by_cases hk : k = agno
              · exact Or.inr ⟨ag', by rw [hput, if_pos hk], hclean⟩
              · rcases hor with hmem | ⟨old, hold, hc⟩
                · exact Or.inl ((List.mem_cons.mp hmem).resolve_left hk)
                · exact Or.inr ⟨old, by rw [hput, if_neg hk]; exact hold, hc⟩
            · rcases List.mem_append.mp hx with hx | hx
              · refine ⟨agno, hin, by rw [hag]; simp, ?_⟩
                rcases hws x hx with ⟨b, hb, hat, hlen⟩ | ⟨n, hn, hat, hlen⟩
                · rw [hat, hlen]
                  exact inGroup_block h.spacious hheld.agLen hb
                · rw [hat, hlen]
                  exact (inGroup_header h.spacious hin hn).1
              · obtain ⟨k, hk, hne, hig⟩ := h6 x hx
                exact ⟨k, hk, fun h0 => hne ((hnone k).mpr h0), hig⟩
          · simp only [hd] at hrun
            obtain ⟨h1, h2, h3, h4, h5, h6⟩ := ih h hrun
            refine ⟨h1, h2, h3, h4, fun k ag1 hag1 hor => h5 k ag1 hag1 ?_, h6⟩
            rcases hor with hmem | hor
            · rcases List.mem_cons.mp hmem with rfl | hmem
              · exact Or.inr ⟨ag, hag, by simpa using hd⟩
              · exact Or.inl hmem
            · exact Or.inr hor

end

/-! ## The sums -/

/-- The headers of AG `k`, where they can be read. -/
def headers (v : Volume) (k : Nat) : Bytes × Bytes := (v.headersOf k).toOption.getD ([], [])

/-- The superblock, in memory and on the device, counts every group, in memory or not. -/
structure CountsAll (v : Volume) : Prop where
  readable : ∀ k < v.sb.agCount, v.headersOf k = .ok (v.headers k)
  icount : v.sb.icount = ∑ k ∈ range v.sb.agCount, (agiInodes (v.headers k).2).1
  ifree : v.sb.ifree = ∑ k ∈ range v.sb.agCount, (agiInodes (v.headers k).2).2
  freeBlocks : v.sb.freeBlocks = ∑ k ∈ range v.sb.agCount, agfFreeBlocks (v.headers k).1
  written : ∃ buf, v.dev.readAt 0 v.sb.sect = .ok buf ∧ be64 buf 128 = v.sb.icount ∧
    be64 buf 136 = v.sb.ifree ∧ be64 buf 144 = v.sb.freeBlocks

section
variable {v v' : Volume} {book : Book}

theorem headers_eq {k : Nat} {hd : Bytes × Bytes} (h : v.headersOf k = .ok hd) :
    v.headers k = hd := by
  unfold headers
  rw [h]
  rfl

theorem countersOf_ok : ∀ {ks : List Nat} {a b c a' b' c' : Nat},
    v.countersOf ks (a, b, c) = .ok (a', b', c') →
    (∀ k ∈ ks, v.headersOf k = .ok (v.headers k)) ∧
      a' = a + (ks.map fun k => (agiInodes (v.headers k).2).1).sum ∧
      b' = b + (ks.map fun k => (agiInodes (v.headers k).2).2).sum ∧
      c' = c + (ks.map fun k => agfFreeBlocks (v.headers k).1).sum ∧
      (a < 2 ^ 64 ∧ b < 2 ^ 64 ∧ c < 2 ^ 64 → a' < 2 ^ 64 ∧ b' < 2 ^ 64 ∧ c' < 2 ^ 64) := by
  intro ks
  induction ks with
  | nil =>
      intro a b c a' b' c' h
      simp only [countersOf, pure, Except.pure, Except.ok.injEq, Prod.mk.injEq] at h
      obtain ⟨rfl, rfl, rfl⟩ := h
      exact ⟨fun k hk => absurd hk List.not_mem_nil, rfl, rfl, rfl, id⟩
  | cons k ks ih =>
      intro a b c a' b' c' h
      unfold countersOf at h
      simp only [except_bind_eq_ok, except_throwIf_eq_ok] at h
      obtain ⟨hd, hhd, _, hlt, h⟩ := h
      rw [← headers_eq hhd] at hlt h hhd
      obtain ⟨h1, h2, h3, h4, h5⟩ := ih h
      simp only [not_or, Nat.not_le] at hlt
      refine ⟨fun j hj => ?_, ?_, ?_, ?_, fun _ => h5 hlt⟩
      · rcases List.mem_cons.mp hj with rfl | hj
        · exact hhd
        · exact h1 j hj
      · rw [h2, List.map_cons, List.sum_cons, Nat.add_assoc]
      · rw [h3, List.map_cons, List.sum_cons, Nat.add_assoc]
      · rw [h4, List.map_cons, List.sum_cons, Nat.add_assoc]

/-- The superblock's sector with the counters in it. -/
def superBuf (sbuf : Bytes) (icount ifree fdblocks : Nat) : Bytes :=
  Crc.stamp (putFields 8 sbuf [(128, icount), (136, ifree), (144, fdblocks)]) 224

theorem superBuf_holds {sbuf : Bytes} {a b c : Nat} (hlen : 228 ≤ sbuf.length)
    (h : a < 2 ^ 64 ∧ b < 2 ^ 64 ∧ c < 2 ^ 64) : (superBuf sbuf a b c).length = sbuf.length ∧
      be64 (superBuf sbuf a b c) 128 = a ∧ be64 (superBuf sbuf a b c) 136 = b ∧
      be64 (superBuf sbuf a b c) 144 = c := by
  have hfits : ∀ f ∈ [(128, a), (136, b), (144, c)], f.1 + 8 ≤ sbuf.length := by
    simp only [List.mem_cons, List.not_mem_nil, or_false]
    rintro f (rfl | rfl | rfl) <;> simp only <;> omega
  have hput := length_putFields hfits
  have hapart : ([(128, a), (136, b), (144, c)].map (·.1)).Pairwise fun o o' =>
      o + 8 ≤ o' ∨ o' + 8 ≤ o := by simp
  have hread : ∀ {o v}, (o, v) ∈ [(128, a), (136, b), (144, c)] → v < 2 ^ 64 → o + 8 ≤ 224 →
      be64 (superBuf sbuf a b c) o = v := fun hm hv ho => by
    unfold superBuf
    rw [be64, Crc.getBe_stamp_disjoint (by omega) (Or.inl ho)]
    exact getBe_putFields hfits hapart hm (by simpa using hv)
  refine ⟨?_, hread (by simp) h.1 (by omega), hread (by simp) h.2.1 (by omega),
    hread (by simp) h.2.2 (by omega)⟩
  unfold superBuf
  rw [Crc.length_stamp (by omega), hput]

theorem writeSuper_ok {a b c : Nat} (h : writeSuper a b c v = .ok () v') :
    ∃ sbuf dev, v.dev.readAt 0 v.sb.sect = .ok sbuf ∧
      Device.writeAt 0 (superBuf sbuf a b c) v.dev = .ok () dev ∧
      v' = { v with dev := dev, sb := { v.sb with icount := a, ifree := b, freeBlocks := c } } := by
  unfold writeSuper at h
  simp only [get_bind_apply] at h
  obtain ⟨sbuf, v1, h1, h⟩ := bind_eq_ok.mp h
  obtain ⟨hread, rfl⟩ := liftE_eq_ok.mp h1
  obtain ⟨_, v2, h2, h⟩ := bind_eq_ok.mp h
  obtain ⟨dev, hwrite, rfl⟩ := onDev_eq_ok.mp h2
  obtain ⟨-, rfl⟩ := EStateM.Result.ok.inj h
  exact ⟨sbuf, dev, hread, hwrite, rfl⟩

theorem writeSuper_succeeds {a b c : Nat} {sbuf : Bytes} {dev : Device}
    (hread : v.dev.readAt 0 v.sb.sect = .ok sbuf)
    (hwrite : Device.writeAt 0 (superBuf sbuf a b c) v.dev = .ok () dev) : writeSuper a b c v =
      .ok () { v with dev := dev, sb := { v.sb with icount := a, ifree := b, freeBlocks := c } } := by
  unfold writeSuper
  rw [get_bind_apply, bind_of_ok (liftE_eq_ok.mpr ⟨hread, rfl⟩)]
  exact bind_of_ok (onDev_eq_ok.mpr ⟨dev, hwrite, rfl⟩)

theorem headersOf_none {k : Nat} (h : v.ag? k = none) :
    v.headersOf k = readHeaders v.dev v.sb k := by
  unfold headersOf
  rw [show v.w.bind (·.ags.get? k) = none from h]

theorem headersOf_some {k : Nat} {ag : Ag} (h : v.ag? k = some ag) :
    v.headersOf k = .ok (ag.agf, ag.agi) := by
  unfold headersOf
  rw [show v.w.bind (·.ags.get? k) = some ag from h]

/-- The superblock's sector holds no group's headers. -/
theorem readHeaders_writeSuper {dev : Device} {buf : Bytes} {k : Nat} (h : Spacious v.sb)
    (hk : k < v.sb.agCount) (hbuf : buf.length = v.sb.sect)
    (hw : Device.writeAt 0 buf v.dev = .ok () dev) :
    readHeaders dev v.sb k = readHeaders v.dev v.sb k :=
  readHeaders_congr fun m hm => Device.readAt_writeAt_disjoint hw
    (Or.inr (by rw [hbuf, Nat.zero_add]; exact (inGroup_header h hk hm).2))

end

/-! ## A flush -/

/-- What a flush does once the directories are laid out: the groups, then the superblock. -/
def commit (sb : Superblock) : Act Volume Unit := do
  let w ← getWriter
  let writes ← rebuildAgs sb w.ags.keys
  onDev (Device.writeAll writes)
  let v ← get
  let (icount, ifree, fdblocks) ← liftE (v.countersOf (List.range v.sb.agCount) (0, 0, 0))
  writeSuper icount ifree fdblocks
  modifyWriter fun w => { w with newChunks := 0 }
  onDev Device.flush

/-- The blocks of all the groups. -/
def groupBlocks (sb : Superblock) : Nat :=
  ∑ k ∈ range sb.agCount, min (sb.dataBlocks - k * sb.agBlocks) sb.agBlocks

section
variable {v v' : Volume} {book : Book}

/-- A flush lays out the directories changed, none of which is held from then on, and
then commits. -/
theorem flush_eq {w : Writer} (hw : v.w = some w) : flush v =
    (modifyWriter (fun w => { w with dirs := .empty }) >>= fun _ =>
      writeDirs w.dirs.entries >>= fun _ => commit v.sb) v := by
  unfold flush
  simp only [get_bind_apply, hw]
  rfl

theorem agLen_eq {sb : Superblock} {k len : Nat} (h : sb.agLen k = .ok len) :
    len = min (sb.dataBlocks - k * sb.agBlocks) sb.agBlocks := by
  unfold Superblock.agLen at h
  simp only at h
  split at h
  · exact (Except.ok.inj h).symm
  · cases h

/-- Books that hold still hold when only the counters have changed and other bytes. -/
theorem Booked.of_shape (h : Booked v book) (hags : ∀ k, v'.ag? k = v.ag? k)
    (hshape : SameShape v'.sb v.sb) (hdisk : ∀ k < v.sb.agCount,
      readHeaders v'.dev v.sb k = readHeaders v.dev v.sb k) :
    Booked v' book ∧ ∀ k < v.sb.agCount, v'.headersOf k = v.headersOf k := by
  have hcount : v'.sb.agCount = v.sb.agCount := by rw [hshape]
  have hread : ∀ k < v.sb.agCount, readHeaders v'.dev v'.sb k = readHeaders v.dev v.sb k := by
    intro k hk
    rw [← hdisk k hk, hshape]
    rfl
  refine ⟨⟨hshape.spacious h.spacious, fun k ag hag => ?_, fun k hk hnone => ?_⟩, fun k hk => ?_⟩
  · rw [hags] at hag
    obtain ⟨hk, hheld⟩ := h.loaded k ag hag
    exact ⟨by rw [hcount]; exact hk, hshape.held hheld⟩
  · rw [hags] at hnone
    rw [hcount] at hk
    obtain ⟨agf, agi, len, hhd, hl, heq⟩ := h.onDisk k hk hnone
    refine ⟨agf, agi, len, (hread k hk).trans hhd, ?_, ?_⟩
    · rw [hshape]
      exact hl
    · rw [hshape]
      exact heq
  · cases hag : v.ag? k with
    | some ag => rw [headersOf_some ((hags k).trans hag), headersOf_some hag]
    | none => rw [headersOf_none ((hags k).trans hag), headersOf_none hag, hread k hk]

/-- A group whose headers are up to date counts what its books leave. -/
theorem Booked.count (h : Booked v book) (hclean : ∀ k ag, v.ag? k = some ag → ag.dirty = false)
    {k : Nat} (hk : k < v.sb.agCount) : agfFreeBlocks (v.headers k).1 + book.given k + agRoots v.sb =
      min (v.sb.dataBlocks - k * v.sb.agBlocks) v.sb.agBlocks := by
  cases hag : v.ag? k with
  | some ag =>
      obtain ⟨-, hheld⟩ := h.loaded k ag hag
      rw [headers_eq (headersOf_some hag), ← agLen_eq hheld.agLen, ← hheld.clean (hclean k ag hag),
        ← hheld.trees_eq]
      rfl
  | none =>
      obtain ⟨agf, agi, len, hread, hlen, heq⟩ := h.onDisk k hk hag
      rw [headers_eq ((headersOf_none hag).trans hread), ← agLen_eq hlen]
      exact heq

/-- A commit leaves the superblock counting every group, and no block is counted that
somebody owns. -/
theorem Booked.commit (h : Booked v book) (hrun : commit v.sb v = .ok () v') :
    Booked v' book ∧ SameShape v'.sb v.sb ∧ CountsAll v' ∧
      v'.sb.freeBlocks + ∑ k ∈ range v.sb.agCount, book.given k + v.sb.agCount * agRoots v.sb =
        groupBlocks v.sb := by
  unfold Volume.commit at hrun
  obtain ⟨w, v1, hgw, hrun⟩ := bind_eq_ok.mp hrun
  obtain ⟨w', hw'⟩ : ∃ w', v.w = some w' := by
    unfold getWriter at hgw
    cases hw : v.w with
    | none => simp [hw] at hgw
    | some w' => exact ⟨w', rfl⟩
  rw [getWriter_apply hw'] at hgw
  obtain ⟨rfl, rfl⟩ := EStateM.Result.ok.inj hgw
  obtain ⟨writes, v2, hreb, hrun⟩ := bind_eq_ok.mp hrun
  obtain ⟨_, v3, hdev, hrun⟩ := bind_eq_ok.mp hrun
  simp only [get_bind_apply] at hrun
  obtain ⟨⟨a, b, c⟩, v4, hsum, hrun⟩ := bind_eq_ok.mp hrun
  obtain ⟨hcounts, rfl⟩ := liftE_eq_ok.mp hsum
  obtain ⟨_, v5, hsuper, hrun⟩ := bind_eq_ok.mp hrun
  obtain ⟨_, v6, hmod, hrun⟩ := bind_eq_ok.mp hrun
  obtain ⟨-, rfl⟩ := EStateM.Result.ok.inj hmod
  obtain ⟨dev6, hflush, rfl⟩ := onDev_eq_ok.mp hrun
  obtain ⟨dev3, hwrites, rfl⟩ := onDev_eq_ok.mp hdev
  obtain ⟨h2, hdev2, hsb2, hnone2, hclean2, hws⟩ := rebuildAgs_ok h hreb
  -- The groups written to are in memory, so the headers on the device of the others stay.
  have h3 : Booked { v2 with dev := dev3 } book := by
    refine h2.stepped (Stepped.elsewhere rfl (fun _ => rfl) fun k hin hk => ?_)
    refine readHeaders_congr fun m hm => Device.readAt_writeAll_disjoint hwrites fun x hx => ?_
    obtain ⟨j, hj, hne, hig⟩ := hws x hx
    have hjk : k ≠ j := fun heq => hne (by rw [← heq]; exact (hnone2 k).mp hk)
    rw [← hsb2] at hig
    exact (inGroup_header h2.spacious hin hm).1.apart hig hjk
  have hclean : ∀ k ag, v2.ag? k = some ag → ag.dirty = false := fun k ag hag => by
    refine hclean2 k ag hag (Or.inl ?_)
    cases hold : v.ag? k with
    | none =>
        rw [(hnone2 k).mpr hold] at hag
        cases hag
    | some old =>
        obtain ⟨w, hw, hget⟩ := ag?_eq_some.mp hold
        rw [hw'] at hw
        obtain rfl := Option.some.inj hw
        exact List.mem_map_of_mem (OrdMap.get?_eq_some.mp hget)
  obtain ⟨hreadable, ha, hb, hc, hbound⟩ := countersOf_ok hcounts
  obtain ⟨sbuf, dev5, hread, hput, rfl⟩ := writeSuper_ok hsuper
  have hsbuf := Device.length_of_readAt hread
  have hsect := h3.spacious.sector
  obtain ⟨hlen, hs1, hs2, hs3⟩ := superBuf_holds (by rw [hsbuf]; exact hsect)
    (hbound ⟨by norm_num, by norm_num, by norm_num⟩)
  have hread6 : ∀ o n, dev6.readAt o n = dev5.readAt o n := Device.readAt_flush hflush
  have hshape : SameShape { v2.sb with icount := a, ifree := b, freeBlocks := c } v2.sb := rfl
  obtain ⟨hbooked, hsame⟩ := @Booked.of_shape _ { v2 with
      dev := dev6
      sb := { v2.sb with icount := a, ifree := b, freeBlocks := c }
      w := v2.w.map fun w => { w with newChunks := 0 } } book h3
    (fun k => by unfold ag?; cases v2.w <;> rfl) hshape
    (fun k hk => (readHeaders_congr fun m _ => hread6 _ _).trans
      (readHeaders_writeSuper h3.spacious hk (by rw [hlen, hsbuf]) hput))
  have hhd : ∀ k < v2.sb.agCount, headers _ k = headers { v2 with dev := dev3 } k :=
    fun k hk => congrArg (fun r => r.toOption.getD ([], [])) (hsame k hk)
  have hsum : ∀ f : Bytes × Bytes → Nat, 0 + ((List.range v2.sb.agCount).map fun k =>
      f (headers { v2 with dev := dev3 } k)).sum = ∑ k ∈ range v2.sb.agCount, f (headers _ k) :=
    fun f => (Nat.zero_add _).trans
      (Finset.sum_congr rfl fun k hk => congrArg f (hhd k (Finset.mem_range.mp hk)).symm)
  refine ⟨hbooked, by rw [← hsb2]; exact hshape, ⟨fun k hk => ?_, ?_, ?_, ?_, superBuf sbuf a b c, ?_,
    hs1, hs2, hs3⟩, ?_⟩
  · rw [hhd k hk, hsame k hk]
    exact hreadable k (List.mem_range.mpr hk)
  · exact ha.trans (hsum fun hd => (agiInodes hd.2).1)
  · exact hb.trans (hsum fun hd => (agiInodes hd.2).2)
  · exact hc.trans (hsum fun hd => agfFreeBlocks hd.1)
  · have := Device.readAt_writeAt_same hput
    rw [hlen, hsbuf] at this
    rw [hread6]
    exact this
  · have htotal : ∑ k ∈ range v2.sb.agCount, (agfFreeBlocks (headers { v2 with dev := dev3 } k).1 +
        book.given k + agRoots v2.sb) = groupBlocks v2.sb :=
      Finset.sum_congr rfl fun k hk => h3.count hclean (Finset.mem_range.mp hk)
    rw [Finset.sum_add_distrib, Finset.sum_add_distrib, Finset.sum_const, Finset.card_range,
      nsmul_eq_mul, Nat.cast_id] at htotal
    rw [← hsb2, ← htotal]
    exact congrArg (· + _ + _) (hc.trans (Nat.zero_add _))

/-- The volume as a flush starts to lay out the directories: none is held any more. -/
def cleared (v : Volume) : Volume := { v with w := v.w.map fun w => { w with dirs := .empty } }

/-- The directories that changed are in order, so that a flush can lay them out. -/
def DirsReady (v : Volume) (book : Book) : Prop := ∃ w dirs, v.w = some w ∧
  dirs.map (·.1) = w.dirs.entries.map (·.1) ∧ DirsInOrder v.cleared book dirs

/-- A successful flush, the books kept while it lays out the directories. -/
inductive Flushed : Volume × Book → Volume × Book → Prop where
  | mk {v v1 v' : Volume} {book book' : Book} {w : Writer} (hw : v.w = some w)
      (hdirs : writeDirs w.dirs.entries v.cleared = .ok () v1)
      (hsteps : Relation.ReflTransGen Stepped (v.cleared, book) (v1, book'))
      (hrun : flush v = .ok () v') : Flushed (v, book) (v', book')

theorem clear_eq {w : Writer} (hw : v.w = some w) :
    modifyWriter (fun w => { w with dirs := .empty }) v = .ok () v.cleared := by
  unfold modifyWriter cleared
  rw [modify_apply, hw]

/-- Every flush that succeeds is one that the books follow. -/
theorem DirsReady.flushed (h : DirsReady v book) (hrun : flush v = .ok () v') :
    ∃ book', Flushed (v, book) (v', book') := by
  obtain ⟨w, dirs, hw, hkeys, hdirs⟩ := h
  have hparts := hrun
  rw [flush_eq hw, bind_of_ok (clear_eq hw)] at hparts
  obtain ⟨_, v1, hwrite, -⟩ := bind_eq_ok.mp hparts
  obtain ⟨book', hsteps⟩ := hdirs.writeDirs hkeys hwrite
  exact ⟨book', .mk hw hwrite hsteps hrun⟩

/-- What the writer does: steps, and now and then a flush. -/
def Writes (p q : Volume × Book) : Prop := Stepped p q ∨ Flushed p q

/-- The free blocks a flush counts and the blocks given out are all the groups' blocks but
the roots of their trees. -/
theorem Booked.flushed (h : Booked v book) {book' : Book} (hf : Flushed (v, book) (v', book')) :
    Booked v' book' ∧ SameShape v'.sb v.sb ∧ CountsAll v' ∧
      v'.sb.freeBlocks + ∑ k ∈ range v.sb.agCount, book'.given k + v.sb.agCount * agRoots v.sb =
        groupBlocks v.sb := by
  cases hf with
  | @mk _ v1 _ _ _ w hw hdirs hsteps hrun =>
      have hclear : Booked v.cleared book := by
        refine h.stepped (Stepped.elsewhere rfl (fun k => ?_) fun _ _ _ => rfl)
        unfold ag? cleared
        rw [hw]
        rfl
      obtain ⟨h1, hsb⟩ := hclear.steps hsteps
      have hsb : v1.sb = v.sb := hsb
      rw [flush_eq hw, bind_of_ok (clear_eq hw), bind_of_ok hdirs, ← hsb] at hrun
      rw [← hsb]
      exact h1.commit hrun

theorem Booked.writes {p q : Volume × Book} (h : Booked p.1 p.2)
    (hrun : Relation.ReflTransGen Writes p q) : Booked q.1 q.2 ∧ SameShape q.1.sb p.1.sb := by
  refine @run_relates _ Writes (fun p q => SameShape q.1.sb p.1.sb) (fun p => Booked p.1 p.2)
    (fun _ => rfl) (fun _ _ _ h1 h2 => h2.trans h1) (fun s t hs hst => ?_) _ _ h hrun
  rcases hst with hst | hst
  · exact ⟨hs.stepped hst, by rw [hst.sb_eq]; rfl⟩
  · obtain ⟨hb, hshape, -⟩ := hs.flushed hst
    exact ⟨hb, hshape⟩

/-- Blocks are conserved: a rebuilt group counts every block somebody does not own but the
roots of its trees; a flush that succeeds is followed in the books, whatever directories it lays
out; what it writes is summed over all groups, in memory or not; and from one flush to the next the
free blocks change by what was given out. -/
theorem free_blocks_conserved {sector : Bytes} {sb : Superblock}
    (hparse : Superblock.parse sector = .ok sb) (hwritable : sb.checkWritable = .ok ()) :
    (∀ (dev : Device) (agno : Nat) (ag0 ag ag' : Ag) (own0 own : Finset Nat)
        (writes : List (Nat × Bytes)), Alloc.load dev sb agno = .ok ag0 →
      (∀ b, freeAt ag0.free b + (ag0.agfl ++ ag0.oldTreeBlocks).count b +
        (if b ∈ own0 then 1 else 0) = within 0 ag0.len b) →
      Relation.ReflTransGen (AccStep sb) (ag0, own0) (ag, own) →
      rebuild sb ag = .ok writes ag' → Counted sb ag' own) ∧
    (∀ (v v' : Volume) (book : Book), DirsReady v book → flush v = .ok () v' →
      ∃ book', Flushed (v, book) (v', book')) ∧
    ∀ (v v1 v1' : Volume) (book book1 book1' : Book), SameShape v.sb sb → Booked v book →
      Relation.ReflTransGen Writes (v, book) (v1, book1) → Flushed (v1, book1) (v1', book1') →
      CountsAll v1' ∧
      v1'.sb.freeBlocks + ∑ k ∈ range sb.agCount, book1'.given k + sb.agCount * agRoots sb =
        groupBlocks sb ∧
      ∀ (v2 v2' : Volume) (book2 book2' : Book),
        Relation.ReflTransGen Writes (v1', book1') (v2, book2) →
        Flushed (v2, book2) (v2', book2') →
        CountsAll v2' ∧ v2'.sb.freeBlocks + ∑ k ∈ range sb.agCount, book2'.given k =
          v1'.sb.freeBlocks + ∑ k ∈ range sb.agCount, book1'.given k := by
  have hs := Superblock.sound_of_parse hparse
  have hpos := chunkBlocks_pos hs (Superblock.checkWritable_ok hwritable).2.2
  refine ⟨?_, fun v v' book hready hrun => hready.flushed hrun, ?_⟩
  · intro dev agno ag0 ag ag' own0 own writes hload hpart hrun hreb
    have h0 : Parted ag0 own0 := parted_of_loaded hs hload hpart
    have h1 := @run_invariant _ (AccStep sb) (fun p => Parted p.1 p.2)
      (fun p q hp hst => AccStep.parted hs hpos hp hst) _ _ h0 hrun
    exact (h1.rebuilt hs hreb).2
  · intro v v1 v1' book book1 book1' hshape hbooked hrun hflush
    obtain ⟨hb1, hs1⟩ := hbooked.writes hrun
    obtain ⟨hb1', hs1', hcounts, hlaw⟩ := Booked.flushed hb1 hflush
    have hto : SameShape v1.sb sb := hs1.trans hshape
    have hlaw1 : v1'.sb.freeBlocks + ∑ k ∈ range sb.agCount, book1'.given k +
        sb.agCount * agRoots sb = groupBlocks sb := by
      rw [hto] at hlaw
      exact hlaw
    refine ⟨hcounts, hlaw1, fun v2 v2' book2 book2' hrun2 hflush2 => ?_⟩
    obtain ⟨hb2, hs2⟩ := @Booked.writes (v1', book1') _ hb1' hrun2
    obtain ⟨-, -, hcounts2, hlaw2⟩ := Booked.flushed hb2 hflush2
    have hto2 : SameShape v2.sb sb := (SameShape.trans hs2 hs1').trans hto
    rw [hto2] at hlaw2
    refine ⟨hcounts2, ?_⟩
    have : v2'.sb.freeBlocks + ∑ k ∈ range sb.agCount, book2'.given k + sb.agCount * agRoots sb =
        groupBlocks sb := hlaw2
    omega

/-! ## Commits that succeed -/

/-- A device that does not fail is written as far as it reaches. -/
theorem writeAt_succeeds {at_ : Nat} {buf : Bytes} {d : Device} (hfaults : d.faults = [])
    (hfit : at_ + buf.length ≤ d.size) :
    ∃ d', Device.writeAt at_ buf d = .ok () d' ∧ d'.faults = [] ∧ d'.size = d.size := by
  have hnext : d.nextFault = (false, d) := by
    unfold Device.nextFault
    rw [hfaults]
  have hrun : Device.writeAt at_ buf d = .ok () { d with data := splice d.data at_ buf } := by
    unfold Device.writeAt
    rw [if_pos hfit, hnext]
  exact ⟨_, hrun, hfaults, Device.size_writeAt hrun⟩

theorem writeAll_succeeds {writes : List (Nat × Bytes)} : ∀ {d : Device}, d.faults = [] →
    (∀ x ∈ writes, x.1 + x.2.length ≤ d.size) →
      ∃ d', Device.writeAll writes d = .ok () d' ∧ d'.faults = [] ∧ d'.size = d.size := by
  induction writes with
  | nil => exact fun hfaults _ => ⟨_, rfl, hfaults, rfl⟩
  | cons x writes ih =>
    intro d hfaults hfit
    obtain ⟨at_, buf⟩ := x
    obtain ⟨d1, hone, hfaults1, hsize1⟩ := writeAt_succeeds hfaults (hfit _ List.mem_cons_self)
    obtain ⟨d2, hrest, hfaults2, hsize2⟩ := ih hfaults1 fun y hy =>
      hsize1 ▸ hfit y (List.mem_cons_of_mem _ hy)
    refine ⟨d2, ?_, hfaults2, hsize2.trans hsize1⟩
    unfold Device.writeAll
    rw [bind_of_ok hone]
    exact hrest

theorem countersOf_congr : ∀ {ks : List Nat} {sums : Nat × Nat × Nat},
    (∀ k ∈ ks, v'.headersOf k = v.headersOf k) → v'.countersOf ks sums = v.countersOf ks sums := by
  intro ks
  induction ks with
  | nil => exact fun _ => rfl
  | cons k ks ih =>
    intro sums h
    obtain ⟨a, b, c⟩ := sums
    have hrest : ∀ sums, v'.countersOf ks sums = v.countersOf ks sums := fun _ =>
      ih fun j hj => h j (List.mem_cons_of_mem _ hj)
    unfold countersOf
    rw [h k List.mem_cons_self]
    simp only [hrest]

/-- Where all groups are in memory and can be rebuilt, and the device has room for what is written and
does not fail, a commit succeeds. -/
theorem Booked.commit_succeeds {v2 : Volume} {w : Writer} {writes : List (Nat × Bytes)}
    {sums : Nat × Nat × Nat} (h : Booked v book) (hw : v.w = some w)
    (hreb : rebuildAgs v.sb w.ags.keys v = .ok writes v2) (hfaults : v.dev.faults = [])
    (hfit : ∀ x ∈ writes, x.1 + x.2.length ≤ v.dev.size) (hsect : v.sb.sect ≤ v.dev.size)
    (hin : ∀ k < v.sb.agCount, v.ag? k ≠ none)
    (hcounts : v2.countersOf (List.range v.sb.agCount) (0, 0, 0) = .ok sums) :
    ∃ v', Volume.commit v.sb v = .ok () v' ∧ v'.sb.freeBlocks = sums.2.2 := by
  obtain ⟨-, hdev2, hsb2, hnone2, -, -⟩ := rebuildAgs_ok h hreb
  rw [← hdev2] at hfaults hfit hsect
  obtain ⟨d3, hwrite, hfaults3, hsize3⟩ := writeAll_succeeds hfaults hfit
  obtain ⟨a, b, c⟩ := sums
  have hcounts3 : Volume.countersOf { v2 with dev := d3 } (List.range v2.sb.agCount) (0, 0, 0) =
      .ok (a, b, c) := by
    rw [show v2.sb.agCount = v.sb.agCount by rw [hsb2]]
    refine (countersOf_congr fun k hk => ?_).trans hcounts
    cases hag : v2.ag? k with
    | none => exact absurd ((hnone2 k).mp hag) (hin k (List.mem_range.mp hk))
    | some ag => exact (headersOf_some (v := { v2 with dev := d3 }) hag).trans (headersOf_some hag).symm
  have hread : d3.readAt 0 v2.sb.sect = .ok (slice d3.data 0 v2.sb.sect) := by
    refine if_pos ?_
    rw [hsize3, hsb2, Nat.zero_add]
    exact hsect
  have hlen := Device.length_of_readAt hread
  have hbuf := (superBuf_holds (a := a) (b := b) (c := c) (by rw [hlen, hsb2]; exact h.spacious.sector)
    ((countersOf_ok hcounts).2.2.2.2 ⟨by norm_num, by norm_num, by norm_num⟩)).1.trans hlen
  obtain ⟨d4, hsuper, hfaults4, -⟩ := writeAt_succeeds hfaults3
    (show 0 + (superBuf (slice d3.data 0 v2.sb.sect) a b c).length ≤ d3.size by
      rw [hbuf, hsize3, hsb2, Nat.zero_add]
      exact hsect)
  have hflush : Device.flush d4 = .ok () d4 := by
    unfold Device.flush Device.nextFault
    rw [hfaults4]
  have hcounted := @writeSuper_succeeds { v2 with dev := d3 } a b c _ d4 hread hsuper
  refine ⟨{ v2 with
    dev := d4, sb := { v2.sb with icount := a, ifree := b, freeBlocks := c }
    w := v2.w.map fun w => { w with newChunks := 0 } }, ?_, rfl⟩
  unfold Volume.commit
  rw [bind_of_ok (getWriter_apply hw), bind_of_ok hreb, bind_of_ok (onDev_eq_ok.mpr ⟨d3, hwrite, rfl⟩),
    get_bind_apply]
  rw [bind_of_ok (liftE_eq_ok.mpr ⟨hcounts3, rfl⟩)]
  simp only
  rw [bind_of_ok hcounted]
  unfold modifyWriter
  rw [bind_of_ok (modify_apply _ _)]
  exact onDev_eq_ok.mpr ⟨d4, hflush, rfl⟩

end

/-! ## A directory that gives its block back -/

/-- One group of 64 blocks: block 6 is the root directory's, the last 32 have inodes. -/
def grownSb : Superblock :=
  { freshSb 64 false with rootIno := 64, icount := 64, ifree := 62, freeBlocks := 24 }

def grownSector : Bytes :=
  let b := put64 (put64 (freshSector 64 false) 56 64) 128 64
  Crc.stamp (put64 (put64 b 136 62) 144 24) 224

/-- The root directory's inode, with one block. -/
def grownRaw : Bytes :=
  let raw := putBe 1 (freshRaw grownSb 64 (Mode.IFDIR ||| 0o755) 0 0 2 1 0) 5 Format.extents.code
  Raw.setNblocks (Raw.setNextents (splice raw CORE (Bmap.packExtents [⟨0, 6, 1, false⟩])) 1) 1

/-- The device, up to that inode's block. -/
def grownDevice : Device :=
  ⟨(grownSector ++ List.replicate (31 * 512) 0) ++
    (Crc.stamp grownRaw INODE_CRC ++ List.replicate 256 0), []⟩

def grownAg : Ag :=
  { freshAg 64 false with
    free := .ofList [(8, 24)], freeTotal := 24
    chunks := .ofList [(64, ⟨0, 64, 2 ^ 64 - 4⟩)], dirty := true }

/-- The volume, its group in memory, and its root directory changed to have one name. -/
def grownVolume : Volume :=
  { dev := grownDevice, sb := grownSb, log := .clean
    w := some { Writer.new ⟨0, 0⟩ with
      ags := .ofList [(0, grownAg)]
      dirs := .ofList [(64, ⟨64, .ofList [([97], (65, 1))]⟩)] }
    time := some ⟨0, 0⟩, clock := [] }

/-- Its books: all but the free blocks and those of the group's own trees. -/
def grownBook : Book := ⟨fun _ => range 4 ∪ {6} ∪ Ico 32 64, fun _ => 1⟩

/-- The root directory, and its block. -/
def grownDirs : List (Nat × List (Nat × Nat)) := [(64, [(6, 1)])]

set_option maxRecDepth 100000 in
theorem parse_grown : Superblock.parse grownSector = .ok grownSb := by decide +kernel

theorem fitting_grown : grownSb.Fitting where
  addressable := ⟨Superblock.sound_of_parse parse_grown, by decide, by decide, by decide⟩
  isV5 := rfl
  inodes_le := by decide
  fsb_le := by decide
  align := Or.inl (by decide)
  agino_lt := by decide

theorem spaceOk_grown : SpaceOk grownAg := by
  refine ⟨freeOk_of_pairwise (fun e he => ?_) (List.pairwise_singleton _ _), rfl, fun b hb => ?_⟩
  · obtain rfl := List.mem_singleton.mp he
    decide
  obtain ⟨e, he, h1, h2⟩ := exists_of_freeAt_pos hb
  obtain rfl := List.mem_singleton.mp he
  change b < 8 + 24 at h2
  change b < 64
  omega

/-- Each block is free, the trees', or in the books. -/
theorem once_grown (b : Nat) : freeAt grownAg.free b + (grownAg.agfl ++ grownAg.oldTreeBlocks).count b +
    (if b ∈ grownBook.own 0 then 1 else 0) = within 0 64 b := by
  rcases Nat.lt_or_ge b 64 with hb | hb
  · have hall : ∀ b < 64, freeAt grownAg.free b + (grownAg.agfl ++ grownAg.oldTreeBlocks).count b +
        (if b ∈ grownBook.own 0 then 1 else 0) = within 0 64 b := by decide
    exact hall b hb
  · have h1 : b ∉ [4, 5, 7] := by
      simp only [List.mem_cons, List.not_mem_nil, or_false]
      omega
    have h2 : freeAt grownAg.free b = 0 := by
      change within 8 24 b + 0 = 0
      rw [within_eq_zero.mpr (by omega)]
    have h3 : b ∉ grownBook.own 0 := by
      simp only [grownBook, Finset.mem_union, Finset.mem_range, Finset.mem_singleton, Finset.mem_Ico]
      omega
    rw [h2, if_neg h3, within_eq_zero.mpr (by omega), Nat.zero_add, Nat.add_zero]
    exact List.count_eq_zero.mpr h1

set_option maxRecDepth 100000 in
theorem held_grown : Held grownSb 0 grownAg (grownBook.own 0) (grownBook.trees 0) where
  parted := ⟨spaceOk_grown, once_grown, by decide +kernel, by decide +kernel, by decide +kernel, by decide⟩
  agno_eq := rfl
  agLen := rfl
  agfLength := by decide +kernel
  agiLength := by decide +kernel
  trees_eq := by decide
  clean h := by cases h

theorem ag?_grown {k : Nat} (hk : k < 1) : grownVolume.ag? k = some grownAg := by
  obtain rfl : k = 0 := Nat.lt_one_iff.mp hk
  rfl

theorem booked_grown : Booked grownVolume grownBook where
  spacious :=
    { sound := fitting_grown.addressable.sound
      perBlock := by decide
      sector := by decide
      ends := by decide
      groups := fun k hk => ⟨64, by
        obtain rfl : k = 0 := Nat.lt_one_iff.mp hk
        exact ⟨rfl, by decide⟩⟩ }
  loaded k ag hag := by
    have hk : k < 1 := by
      obtain ⟨w, hw, hget⟩ := ag?_eq_some.mp hag
      obtain rfl := Option.some.inj hw
      have hmem := List.mem_singleton.mp (OrdMap.get?_eq_some.mp hget)
      rw [(Prod.mk.inj hmem).1]
      exact Nat.zero_lt_one
    rw [ag?_grown hk] at hag
    obtain rfl := Option.some.inj hag
    obtain rfl : k = 0 := Nat.lt_one_iff.mp hk
    exact ⟨hk, held_grown⟩
  onDisk k hk hnone := by
    rw [ag?_grown hk] at hnone
    cases hnone

/-- The inodes of the group are in its last 32 blocks. -/
theorem present_grown {i : Nat} (h : Present grownAg.chunks i) : 64 ≤ i ∧ i < 128 := by
  obtain ⟨e, he, ⟨hlo, hhi⟩, -⟩ := h
  obtain rfl := List.mem_singleton.mp he
  exact ⟨hlo, hhi⟩

theorem fsb_grown {k b : Nat} (hk : k < 1) (hb : b < 64) :
    grownSb.agbToFsb k b ∈ covered [(6, 1)] ↔ b = 6 := by
  obtain rfl : k = 0 := Nat.lt_one_iff.mp hk
  rw [fitting_grown.addressable.agbToFsb_eq hk hb, mem_covered_singleton]
  omega

theorem minds_grown : grownVolume.cleared.Minds (dirsLedger grownDirs) := by
  intro k hk ag hag
  have hk : k < 1 := hk
  obtain rfl : k = 0 := Nat.lt_one_iff.mp hk
  have hgroup : grownVolume.cleared.ag? 0 = some grownAg := rfl
  rcases hag with hag | ⟨hnone, -⟩
  · obtain rfl := Option.some.inj (hgroup.symm.trans hag)
    refine
      { kept := ⟨spaceOk_grown, by decide, held_grown.parted.agiLen, ⟨fun e he => ?_, fun a ha b hb hlt => ?_⟩, ?_⟩
        agLen := rfl
        blocks := fun b hb hL => ?_
        nodes := fun i hi => ?_ }
    · obtain rfl := List.mem_singleton.mp he
      refine ⟨by decide, by decide, fun i _ hi => ?_, by decide, fun i hi _ => ?_⟩
      · exact absurd hi (by simp [Chunk.hole])
      · have hblock : blockOf grownSb (64 + i) = (64 + i) / 2 := rfl
        have hi : i < 64 := hi
        change freeAt grownAg.free (blockOf grownSb (64 + i)) = 0
        rw [hblock]
        change within 8 24 _ + 0 = 0
        rw [within_eq_zero.mpr (by omega)]
    · obtain rfl := List.mem_singleton.mp ha
      obtain rfl := List.mem_singleton.mp hb
      exact absurd hlt (Nat.lt_irrefl _)
    · rintro i ⟨hi, hino⟩
      have hnum : grownSb.aginoToIno 0 i = i := by
        rw [fitting_grown.addressable.aginoToIno_eq hk hi, Nat.zero_mul, Nat.zero_add]
      obtain rfl : i = 64 := hnum.symm.trans (List.mem_singleton.mp hino)
      exact ⟨_, List.mem_singleton.mpr rfl, ⟨by decide, by decide⟩, by decide, by decide⟩
    · obtain rfl := (fsb_grown hk hb).mp hL
      exact ⟨by decide, by decide⟩
    · obtain ⟨hlo, hhi⟩ := present_grown hi
      have hblock : blockOf grownSb i = i / 2 := rfl
      refine ⟨?_, fun hL => ?_⟩
      · change blockOf grownSb i < 64
        omega
      · have hlt : blockOf grownSb i < 64 := by omega
        have := (fsb_grown hk hlt).mp hL
        omega
  · rw [hgroup] at hnone
    cases hnone

set_option maxRecDepth 100000 in
theorem fork_grown : ∃ i, Inode.parse grownSb 64 (Crc.stamp grownRaw INODE_CRC) = .ok i ∧
    Bmap.forkMap grownDevice grownSb i false = .ok ([⟨0, 6, 1, false⟩], []) := by
  have hrun : ((Inode.parse grownSb 64 (Crc.stamp grownRaw INODE_CRC)).toOption.any fun i =>
      decide (Bmap.forkMap grownDevice grownSb i false = .ok ([⟨0, 6, 1, false⟩], []))) = true := by
    decide +kernel
  cases hparse : Inode.parse grownSb 64 (Crc.stamp grownRaw INODE_CRC) with
  | error e =>
    rw [hparse] at hrun
    cases hrun
  | ok i =>
    rw [hparse] at hrun
    exact ⟨i, rfl, of_decide_eq_true hrun⟩

set_option maxRecDepth 100000 in
theorem dirAt_grown : DirAt grownSb grownDevice 64 [(6, 1)] := by
  obtain ⟨i, hparse, hmap⟩ := fork_grown
  have hraw : (Crc.stamp grownRaw INODE_CRC).length = 256 := by decide +kernel
  have hlead : (grownSector ++ List.replicate (31 * 512) (0 : UInt8)).length = 16384 := by
    have hsector : grownSector.length = 512 := by decide +kernel
    rw [List.length_append, hsector, List.length_replicate]
  refine ⟨⟨0, 32, 0, by decide, by decide, by decide, by decide⟩, fun r hr => ?_, _, i, _, [],
    ⟨⟨16384, by decide, ?_, ?_⟩, hraw⟩, hparse, hmap, rfl⟩
  · obtain rfl := List.mem_singleton.mp hr
    exact ⟨0, by decide, 6, 64, by decide, rfl, by decide, by decide⟩
  · unfold Device.size grownDevice
    rw [List.length_append, hlead, List.length_append, hraw, List.length_replicate]
    decide
  · unfold Lib.slice grownDevice
    rw [← hlead, List.drop_left, show grownSb.inodeSize = (Crc.stamp grownRaw INODE_CRC).length from
      hraw.symm, List.take_left]

theorem dirsReady_grown : DirsReady grownVolume grownBook := by
  refine ⟨_, grownDirs, rfl, rfl, fitting_grown, fun p hp => ?_, List.pairwise_singleton _ _,
    List.nodup_singleton _, fun p hp k b i hn hin => ?_, minds_grown, ?_, fun k hk b hb hL => ?_,
    fun k hk hnone => ?_, fun k hk hnone => ?_⟩
  · obtain rfl := List.mem_singleton.mp hp
    exact dirAt_grown
  · obtain rfl := List.mem_singleton.mp hp
    have hk : k < 1 := hn.ag
    obtain rfl : b = 6 := (fsb_grown hk hn.block).mp hin
    have hi : i < 2 := hn.index
    obtain rfl : k = 0 := Nat.lt_one_iff.mp hk
    have hnum : grownSb.aginoToIno 0 (grownSb.aginoAt 6 i) = 64 := hn.number
    rw [fitting_grown.addressable.aginoToIno_eq hn.ag
      (fitting_grown.addressable.aginoAt_lt hn.block hn.index), fitting_grown.addressable.aginoAt_eq] at hnum
    change 0 * _ + (6 * 2 ^ 1 + i) = 64 at hnum
    omega
  · exact booked_grown.stepped (.elsewhere rfl (fun k => rfl) fun _ _ _ => rfl)
  · obtain rfl := (fsb_grown hk hb).mp hL
    change 6 ∈ range 4 ∪ {6} ∪ Ico 32 64
    decide
  · have hgroup := ag?_grown hk
    exact absurd (hgroup.symm.trans hnone) (by simp)
  · have hgroup := ag?_grown hk
    exact absurd (hgroup.symm.trans hnone) (by simp)

/-- The group once the directory is laid out. -/
def shrunkAg : Ag := { grownAg with free := .ofList [(6, 1), (8, 24)], freeTotal := 25 }

/-- Whether the directory is laid out in its inode, with block 6 free. -/
def isShrunk (u : Volume) : Bool :=
  decide (u.ag? 0 = some shrunkAg) && decide (u.w.map (·.ags.keys) = some [0]) &&
    decide (u.dev.faults = [] ∧ 33 * 512 ≤ u.dev.size)

set_option maxRecDepth 100000 in
theorem writeDirs_grown : okWith isShrunk
    ((writeDirs [(64, ⟨64, .ofList [([97], (65, 1))]⟩)] >>= fun _ => get : Act Volume Volume)
      grownVolume.cleared) = true := by decide +kernel

set_option maxRecDepth 100000 in
theorem rebuild_grown : okWith
    (fun r : List (Nat × Bytes) × Ag => decide (∀ x ∈ r.1, x.1 + x.2.length ≤ 33 * 512) &&
      decide (agiInodes r.2.agi = (64, 62)) && decide (agfFreeBlocks r.2.agf = 25))
    ((rebuild grownSb >>= fun ws => get >>= fun ag => pure (ws, ag) : Act Ag (List (Nat × Bytes) × Ag))
      shrunkAg) = true := by decide +kernel

/-- The flush succeeds. -/
theorem flush_grown : ∃ v', flush grownVolume = .ok () v' ∧ v'.sb.freeBlocks = 25 := by
  obtain ⟨u, _, hrun, hu⟩ := exists_of_okWith writeDirs_grown
  obtain ⟨_, v1, hwrite, hget⟩ := bind_eq_ok.mp hrun
  obtain ⟨rfl, -⟩ := EStateM.Result.ok.inj hget
  unfold isShrunk at hu
  simp only [Bool.and_eq_true, decide_eq_true_eq] at hu
  obtain ⟨⟨hag, hkeys⟩, hfaults, hsize⟩ := hu
  obtain ⟨w, hw, hkeys⟩ := Option.map_eq_some_iff.mp hkeys
  -- the books follow that far
  obtain ⟨_, dirs, hsome, hdirs, hready⟩ := dirsReady_grown
  obtain rfl := Option.some.inj hsome
  obtain ⟨book1, hsteps⟩ := hready.writeDirs hdirs hwrite
  obtain ⟨hbooked, hsb⟩ := hready.ready.entered.booked.steps hsteps
  have hsb : v1.sb = grownSb := hsb
  obtain ⟨⟨ws, ag'⟩, _, hpaired, hr⟩ := exists_of_okWith rebuild_grown
  simp only [Bool.and_eq_true, decide_eq_true_eq] at hr
  obtain ⟨⟨hfit, hagi⟩, hagf⟩ := hr
  obtain ⟨ws', t, hreb, hget⟩ := bind_eq_ok.mp hpaired
  obtain ⟨hpair, -⟩ := EStateM.Result.ok.inj hget
  obtain ⟨rfl, rfl⟩ := Prod.mk.inj hpair
  have hon : onAg 0 (rebuild v1.sb) v1 = .ok ws' (v1.putAg 0 t) :=
    (onAg_eq_ok hag).mpr ⟨t, by rw [hsb]; exact hreb, rfl⟩
  have hagain : rebuildAgs v1.sb w.ags.keys v1 = .ok (ws' ++ []) (v1.putAg 0 t) := by
    obtain ⟨w', hw', hget'⟩ := ag?_eq_some.mp hag
    obtain rfl := Option.some.inj (hw.symm.trans hw')
    rw [hkeys]
    unfold rebuildAgs
    rw [bind_of_ok (getWriter_apply hw)]
    simp only [hget']
    rw [if_pos (show shrunkAg.dirty = true from rfl), bind_of_ok hon]
    rfl
  have hcounts : Volume.countersOf (v1.putAg 0 t) (List.range v1.sb.agCount) (0, 0, 0) =
      .ok (64, 62, 25) := by
    rw [hsb]
    change Volume.countersOf (v1.putAg 0 t) [0] (0, 0, 0) = _
    unfold countersOf
    rw [headersOf_some (ag?_putAg_self hag), except_ok_bind]
    simp only [hagi, hagf]
    rfl
  obtain ⟨v', hcommit, hfree⟩ := hbooked.commit_succeeds hw hagain hfaults
    (fun x hx => (hfit x (List.append_nil ws' ▸ hx)).trans hsize)
    (by rw [hsb]; exact (show 512 ≤ 33 * 512 by decide).trans hsize)
    (fun k hk hnone => by
      rw [hsb] at hk
      obtain rfl : k = 0 := Nat.lt_one_iff.mp hk
      rw [hag] at hnone
      cases hnone) hcounts
  refine ⟨v', ?_, hfree⟩
  rw [flush_eq rfl, bind_of_ok (clear_eq rfl)]
  change (writeDirs [(64, ⟨64, .ofList [([97], (65, 1))]⟩)] >>= fun _ => commit grownSb) grownVolume.cleared = _
  rw [bind_of_ok hwrite, ← hsb]
  exact hcommit

/-- The directory's block is free again: one block fewer is given out. -/
theorem free_blocks_conserved_grown : ∃ v' book', flush grownVolume = .ok () v' ∧
    Flushed (grownVolume, grownBook) (v', book') ∧ CountsAll v' ∧
      grownVolume.sb.freeBlocks = 24 ∧ grownBook.given 0 = 38 ∧
      v'.sb.freeBlocks = 25 ∧ book'.given 0 = 37 := by
  obtain ⟨v', hflush, hfree⟩ := flush_grown
  obtain ⟨-, hfollows, hlaw⟩ := free_blocks_conserved parse_grown (by decide)
  obtain ⟨book', hflushed⟩ := hfollows grownVolume v' grownBook dirsReady_grown hflush
  obtain ⟨hcounts, hsum, -⟩ := hlaw grownVolume grownVolume v' grownBook grownBook book' rfl booked_grown
    .refl hflushed
  have hgiven : ∑ k ∈ range grownSb.agCount, book'.given k = book'.given 0 := Finset.sum_range_one _
  have hroots : grownSb.agCount * agRoots grownSb = 2 := by decide
  have hall : groupBlocks grownSb = 64 := by decide
  rw [hgiven, hroots, hall, hfree] at hsum
  exact ⟨v', book', hflush, hflushed, hcounts, rfl, by decide, hfree, by omega⟩

end Volume

end FioXfs
