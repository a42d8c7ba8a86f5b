import FioXfs.Tar.Archive
set_option autoImplicit false

/-!
# What a reader makes of each entry

The records of an extended header say again whatever the entry's own header could not, so the
entry reads as it was, as long as the extended header can say how long its records are.
-/

namespace FioXfs.Tar

open FioXfs.Lib

/-! ## Records override fields -/

theorem override_xattr (m : Member) (x : Bytes × Bytes) :
    override m (xattrKey x.1, x.2) = some { m with xattrs := m.xattrs ++ [x] } := by
  -- The other keywords start with another letter.
  have hne : ∀ k ∈ [ascii "path", ascii "linkpath", ascii "size", ascii "uid", ascii "gid",
      ascii "mtime"], xattrKey x.1 ≠ k := by
    have hhead : ∀ k ∈ [ascii "path", ascii "linkpath", ascii "size", ascii "uid", ascii "gid",
      ascii "mtime"], k.head? ≠ some 83 := by decide
    exact fun k hk heq => hhead k hk (heq ▸ rfl)
  simp only [List.forall_mem_cons] at hne
  obtain ⟨hpath, hlink, hsize, huid, hgid, hmtime, -⟩ := hne
  have hprefix : (ascii "SCHILY.xattr.").isPrefixOf (xattrKey x.1) = true :=
    List.isPrefixOf_iff_prefix.mpr (List.prefix_append _ _)
  have hdrop : (xattrKey x.1).drop 13 = x.1 := List.drop_left' rfl
  rw [override, if_neg hpath, if_neg hlink, if_neg hsize, if_neg huid, if_neg hgid, if_neg hmtime,
    if_pos hprefix, hdrop]

theorem fold_xattrs (xs : List (Bytes × Bytes)) (m : Member) :
    (xs.map fun x => (xattrKey x.1, x.2)).foldlM override m =
      some { m with xattrs := m.xattrs ++ xs } := by
  induction xs generalizing m with
  | nil => simp
  | cons x xs ih =>
    rw [List.map_cons, List.foldlM_cons, override_xattr, Option.bind_eq_bind, Option.bind_some, ih,
      List.append_assoc, List.singleton_append]

/-- The records about an entry itself, and what each of them sets. -/
structure SaysAgain (h : Header) (time : Bytes) : Prop where
  path : ∀ m, override m (ascii "path", h.path) = some { m with path := h.path }
  link : ∀ m, override m (ascii "linkpath", h.link) = some { m with link := h.link }
  size : ∀ m, override m (ascii "size", numeral 10 h.contents) = some { m with size := h.contents }
  uid : ∀ m, override m (ascii "uid", numeral 10 h.uid) = some { m with uid := h.uid }
  gid : ∀ m, override m (ascii "gid", numeral 10 h.gid) = some { m with gid := h.gid }
  mtime : ∀ m, override m (ascii "mtime", time) = some { m with mtime := h.mtime }

theorem says_again {h : Header} {time : Bytes} (hread : readTime time = some h.mtime) :
    SaysAgain h time := by
  have hnumber := fun n => @valueOf_numeral 10 (by omega) (by omega) n
  have hlink : ascii "linkpath" ≠ ascii "path" := by decide
  have hsize : ascii "size" ≠ ascii "path" ∧ ascii "size" ≠ ascii "linkpath" := by decide
  have huid : ascii "uid" ≠ ascii "path" ∧ ascii "uid" ≠ ascii "linkpath" ∧
      ascii "uid" ≠ ascii "size" := by decide
  have hgid : ascii "gid" ≠ ascii "path" ∧ ascii "gid" ≠ ascii "linkpath" ∧
      ascii "gid" ≠ ascii "size" ∧ ascii "gid" ≠ ascii "uid" := by decide
  have hmtime : ascii "mtime" ≠ ascii "path" ∧ ascii "mtime" ≠ ascii "linkpath" ∧
      ascii "mtime" ≠ ascii "size" ∧ ascii "mtime" ≠ ascii "uid" ∧ ascii "mtime" ≠ ascii "gid" := by
    decide
  constructor
  · intro m
    rw [override, if_pos rfl]
  · intro m
    rw [override, if_neg hlink, if_pos rfl]
  · intro m
    rw [override, if_neg hsize.1, if_neg hsize.2, if_pos rfl, hnumber]
    rfl
  · intro m
    rw [override, if_neg huid.1, if_neg huid.2.1, if_neg huid.2.2, if_pos rfl, hnumber]
    rfl
  · intro m
    rw [override, if_neg hgid.1, if_neg hgid.2.1, if_neg hgid.2.2.1, if_neg hgid.2.2.2, if_pos rfl,
      hnumber]
    rfl
  · intro m
    rw [override, if_neg hmtime.1, if_neg hmtime.2.1, if_neg hmtime.2.2.1, if_neg hmtime.2.2.2.1,
      if_neg hmtime.2.2.2.2, if_pos rfl, hread]
    rfl

/-- Together they set everything a header may have left out. -/
theorem fold_metadata {h : Header} (hn : h.mtime.nsecs < 1000000000) (m : Member) :
    ∃ records, metadataRecords h = .ok records ∧ records.foldlM override m = some
      { m with
        path := if 100 < h.path.length then h.path else m.path
        link := if 100 < h.link.length then h.link else m.link
        size := h.contents, uid := h.uid, gid := h.gid, mtime := h.mtime } := by
  obtain ⟨time, htime, hread⟩ := readTime_paxTime hn
  obtain ⟨hpath, hlink, hsize, huid, hgid, hmtime⟩ := says_again hread
  refine ⟨_, by rw [metadataRecords, htime]; rfl, ?_⟩
  by_cases hp : 100 < h.path.length
  · by_cases hl : 100 < h.link.length
    · simp only [if_pos hp, if_pos hl, List.cons_append, List.nil_append, List.foldlM_cons,
        List.foldlM_nil, hpath, hlink, hsize, huid, hgid, hmtime, Option.bind_eq_bind,
        Option.bind_some, Option.pure_def]
    · simp only [if_pos hp, if_neg hl, List.cons_append, List.nil_append, List.foldlM_cons,
        List.foldlM_nil, hpath, hsize, huid, hgid, hmtime, Option.bind_eq_bind, Option.bind_some,
        Option.pure_def]
  · by_cases hl : 100 < h.link.length
    · simp only [if_neg hp, if_pos hl, List.cons_append, List.nil_append, List.foldlM_cons,
        List.foldlM_nil, hlink, hsize, huid, hgid, hmtime, Option.bind_eq_bind, Option.bind_some,
        Option.pure_def]
    · simp only [if_neg hp, if_neg hl, List.nil_append, List.foldlM_cons,
        List.foldlM_nil, hsize, huid, hgid, hmtime, Option.bind_eq_bind, Option.bind_some,
        Option.pure_def]

/-! ## An entry's own header -/

/-- What an entry's own header says of it. -/
def Header.shown (h : Header) : Member where
  path := h.path.take 100
  kind := h.kind
  link := h.link.take 100
  mode := h.mode
  uid := fieldValue 8 h.uid
  gid := fieldValue 8 h.gid
  mtime := ⟨if 0 ≤ h.mtime.secs then (fieldValue 12 h.mtime.secs.toNat : Nat) else 0, 0⟩
  size := fieldValue 12 h.contents
  device := if h.kind = .charDevice ∨ h.kind = .blockDevice then some (h.major, h.minor) else none
  xattrs := []
  content := []

theorem baseMember_of_flag {u : Ustar} {k : EntryKind} (h : u.flag = k.flag) : baseMember u = some
    { path := u.path, kind := k, link := u.link, mode := u.mode, uid := u.uid, gid := u.gid
      mtime := ⟨u.secs, 0⟩, size := u.size
      device := if k = .charDevice ∨ k = .blockDevice then some (u.major, u.minor) else none
      xattrs := [], content := [] } := by
  rw [baseMember, h, kindOf_flag]
  rfl

section
variable {e : Entry}

theorem fieldValue_mode (he : e.Allowed) : fieldValue 8 (e.header.mode &&& 0o7777) = e.header.mode := by
  have hmode := he.mode
  have hmod := Nat.and_two_pow_sub_one_eq_mod e.header.mode 12
  norm_num at hmod hmode
  rw [hmod, Nat.mod_eq_of_lt (by omega), fieldValue, if_pos (by norm_num; omega)]

/-- An entry's own header reads. -/
theorem readHeader_entry (he : e.Allowed) : ∃ u,
    readHeader (ustar e.header.path e.header.kind.flag e.header e.header.contents).1 = some u ∧
      u.flag = e.header.kind.flag ∧ baseMember u = some e.header.shown := by
  refine ⟨_, readHeader_ustar he.noNul.1 he.noNul.2, rfl, ?_⟩
  rw [@baseMember_of_flag _ e.header.kind rfl, fieldValue_mode he]
  have hmajor : fieldValue 8 e.header.major = e.header.major :=
    if_pos (he.device.1.trans_eq (by norm_num))
  have hminor : fieldValue 8 e.header.minor = e.header.minor :=
    if_pos (he.device.2.trans_eq (by norm_num))
  rw [hmajor, hminor]
  unfold Header.shown
  congr 2
  · split_ifs <;> rfl
  · by_cases hdev : e.header.kind = .charDevice ∨ e.header.kind = .blockDevice
    · have hdev' : e.header.isDevice = true := by simpa [Header.isDevice] using hdev
      rw [if_pos hdev, if_pos hdev, if_pos hdev', if_pos hdev']
    · rw [if_neg hdev, if_neg hdev]

/-- Everything fits: the header says all but the attributes. -/
theorem shown_of_fits (hfits : headerFits e.header.path e.header e.header.contents = true)
    (hzero : e.header.mtime.nsecs = 0) :
    { e.header.shown with xattrs := e.header.xattrs } = { e.meant with content := [] } := by
  simp only [headerFits, Bool.and_eq_true, decide_eq_true_eq, octal_isSome_iff (by omega : 8 ≤ 22),
    octal_isSome_iff (by omega : 12 ≤ 22)] at hfits
  obtain ⟨⟨⟨⟨⟨⟨⟨hp, -⟩, hu⟩, hg⟩, hs⟩, hpos, ht⟩, hl⟩, -⟩ := hfits
  have htime : (⟨((fieldValue 12 e.header.mtime.secs.toNat : Nat) : Int), 0⟩ : Timestamp) =
      e.header.mtime := by
    rw [fieldValue, if_pos ht, ← hzero, Int.toNat_of_nonneg hpos]
  have huid : fieldValue 8 e.header.uid = e.header.uid := if_pos hu
  have hgid : fieldValue 8 e.header.gid = e.header.gid := if_pos hg
  have hsize : fieldValue 12 e.header.contents = e.header.contents := if_pos hs
  simp only [Header.shown, Entry.meant, List.take_of_length_le hp, List.take_of_length_le hl, huid,
    hgid, hsize, if_pos hpos, htime]

/-- An entry's records set what its header does not say. -/
theorem fold_records (he : e.Allowed) : ∃ records, e.header.records = .ok records ∧
    records.foldlM override e.header.shown = some { e.meant with content := [] } := by
  by_cases hplain : headerFits e.header.path e.header e.header.contents = true ∧
      e.header.mtime.nsecs = 0
  · refine ⟨e.header.xattrs.map fun x => (xattrKey x.1, x.2), ?_, ?_⟩
    · rw [Header.records, extendedRecords, if_neg (by simp [hplain])]
      rfl
    · rw [fold_xattrs, ← shown_of_fits hplain.1 hplain.2]
      rfl
  · obtain ⟨records, hrecords, hfold⟩ := fold_metadata he.nsecs e.header.shown
    refine ⟨records ++ e.header.xattrs.map fun x => (xattrKey x.1, x.2), ?_, ?_⟩
    · rw [not_and_or, Bool.not_eq_true] at hplain
      rw [Header.records, extendedRecords, if_pos hplain, hrecords]
      rfl
    · have hpath : (if 100 < e.header.path.length then e.header.path else e.header.path.take 100) =
          e.header.path := by
        split_ifs
        · rfl
        · exact List.take_of_length_le (by omega)
      have hlink : (if 100 < e.header.link.length then e.header.link else e.header.link.take 100) =
          e.header.link := by
        split_ifs
        · rfl
        · exact List.take_of_length_le (by omega)
      rw [List.foldlM_append, hfold, Option.bind_eq_bind, Option.bind_some, fold_xattrs]
      simp only [Header.shown, Entry.meant, hpath, hlink, List.nil_append]

/-! ## An extended header -/

/-- The keywords about an entry itself have no equals sign. -/
theorem plain_of_metadata {h : Header} {records : List (Bytes × Bytes)}
    (hr : metadataRecords h = .ok records) : ∀ r ∈ records, (61 : UInt8) ∉ r.1 := by
  obtain ⟨time, -, hout⟩ := except_bind_eq_ok.mp hr
  cases hout
  have hkeys : ∀ k ∈ [ascii "path", ascii "linkpath", ascii "size", ascii "uid", ascii "gid",
      ascii "mtime"], (61 : UInt8) ∉ k := by decide
  intro r hmem
  refine hkeys r.1 ?_
  simp only [List.mem_append, List.mem_cons, List.not_mem_nil, or_false] at hmem
  rcases hmem with (hmem | hmem) | rfl | rfl | rfl | rfl
  · split_ifs at hmem
    · simp [List.mem_singleton.mp hmem]
    · cases hmem
  · split_ifs at hmem
    · simp [List.mem_singleton.mp hmem]
    · cases hmem
  all_goals simp

theorem plain_of_records (he : e.Allowed) {records : List (Bytes × Bytes)}
    (hr : e.header.records = .ok records) : ∀ r ∈ records, (61 : UInt8) ∉ r.1 := by
  rw [Header.records, extendedRecords] at hr
  obtain ⟨metadata, hmeta, hout⟩ := except_bind_eq_ok.mp hr
  cases hout
  have hprefix : (61 : UInt8) ∉ ascii "SCHILY.xattr." := by decide
  intro r hmem
  rcases List.mem_append.mp hmem with hmem | hmem
  · split_ifs at hmeta
    · exact plain_of_metadata hmeta r hmem
    · cases hmeta
      cases hmem
  · obtain ⟨x, hx, rfl⟩ := List.mem_map.mp hmem
    exact fun h => (List.mem_append.mp h).elim hprefix (he.names x hx)

/-- An entry's records read back. -/
theorem readPax_pax (he : e.Allowed) {records : List (Bytes × Bytes)}
    (hr : e.header.records = .ok records) : readPax e.header.pax = some records := by
  obtain ⟨records', hr', hpax⟩ := records_eq_ok he.nsecs
  obtain rfl : records' = records := Except.ok.inj (hr'.symm.trans hr)
  rw [readPax_paxRecords hpax, mapM_eq_some_self]
  exact fun r hmem => (cutAt_append_iff _ _).mpr (plain_of_records he hr r hmem)

/-- No component of a path has what the path has not. -/
theorem notMem_baseName {path : Bytes} (h : (0 : UInt8) ∉ path) : (0 : UInt8) ∉ baseName path := by
  have hpart : ∀ (parts : List Bytes), ∀ c ∈ parts, ∀ b ∈ c, b ∈ List.intercalate [47] parts := by
    intro parts
    induction parts with
    | nil => simp
    | cons p parts ih =>
      intro c hc b hb
      cases parts with
      | nil =>
        obtain rfl : c = p := by simpa using hc
        simpa [List.intercalate] using hb
      | cons q parts =>
        have hcons : List.intercalate [47] (p :: q :: parts) =
            p ++ [47] ++ List.intercalate [47] (q :: parts) := by
          simp [List.intercalate]
        rw [hcons, List.mem_append, List.mem_append]
        rcases List.mem_cons.mp hc with rfl | hc
        · exact Or.inl (Or.inl hb)
        · exact Or.inr (ih c hc b hb)
  unfold baseName
  cases hfind : (path.splitOn 47).reverse.find? (· ≠ []) with
  | none => decide
  | some c =>
    have hmem : c ∈ path.splitOn 47 := List.mem_reverse.mp (List.mem_of_find?_eq_some hfind)
    intro hzero
    have := hpart _ c hmem 0 hzero
    rw [List.intercalate_splitOn] at this
    exact h this

/-- The extended header itself reads: its size only when eleven octal digits hold it. -/
theorem readHeader_extended (he : e.Allowed) (n : Nat) : ∃ u, readHeader
    (ustar (ascii "PaxHeaders/" ++ (baseName e.header.path).take 80) 120
      { mode := 0o644, mtime := ⟨max e.header.mtime.secs 0, 0⟩ } n).1 = some u ∧
      u.flag = 120 ∧ u.size = fieldValue 12 n := by
  have hname : (0 : UInt8) ∉ ascii "PaxHeaders/" ++ (baseName e.header.path).take 80 := by
    have hdir : (0 : UInt8) ∉ ascii "PaxHeaders/" := by decide
    exact fun h => (List.mem_append.mp h).elim hdir fun h =>
      notMem_baseName he.noNul.1 (List.mem_of_mem_take h)
  exact ⟨_, readHeader_ustar hname List.not_mem_nil, rfl, rfl⟩

/-! ## Reading one entry -/

theorem take_head {a b : Bytes} (h : a.length = BLOCK) : (a ++ b).take BLOCK = a := List.take_left' h

/-- An entry after the records of its extended header. -/
theorem readMember_entry (he : e.Allowed) {records : List (Bytes × Bytes)}
    (hr : e.header.records = .ok records) (rest : Bytes) :
    readMember records ((ustar e.header.path e.header.kind.flag e.header e.header.contents).1 ++
      ((e.pieces.flatten ++ List.replicate (padding e.header.contents) 0) ++ rest)) =
        some (e.meant, rest) := by
  obtain ⟨u, hread, -, hbase⟩ := readHeader_entry he
  obtain ⟨records', hr', hfold⟩ := fold_records he
  obtain rfl : records' = records := Except.ok.inj (hr'.symm.trans hr)
  have hlen := @length_ustar e.header.path e.header.kind.flag e.header e.header.contents
  generalize (ustar e.header.path e.header.kind.flag e.header e.header.contents).1 = head at hread hlen ⊢
  have hn : (if e.header.kind = .file then e.header.contents else 0) = e.header.contents := by
    unfold Header.contents
    split_ifs <;> rfl
  have hslice : slice (head ++ (e.pieces.flatten ++ List.replicate (padding e.header.contents) 0 ++ rest))
      BLOCK e.header.contents = e.pieces.flatten := by
    rw [← hlen, ← Nat.add_zero head.length, slice_append_right, ← he.contents, List.append_assoc,
      slice_append_left (Nat.zero_add _).le]
    exact slice_zero_length _
  have hbody : (head ++ (e.pieces.flatten ++ List.replicate (padding e.header.contents) 0)).length =
      BLOCK + e.header.contents + padding e.header.contents := by
    simp only [List.length_append, List.length_replicate, hlen, he.contents]
    omega
  have hdrop : (head ++ (e.pieces.flatten ++ List.replicate (padding e.header.contents) 0 ++ rest)).drop
      (BLOCK + e.header.contents + padding e.header.contents) = rest := by
    rw [← List.append_assoc]
    exact List.drop_left' hbody
  have hlong : ¬(head ++ (e.pieces.flatten ++ List.replicate (padding e.header.contents) 0 ++ rest)).length <
      BLOCK + e.header.contents := by
    rw [← List.append_assoc, List.length_append, hbody]
    omega
  simp only [readMember, take_head hlen, hread, hbase, hfold, Option.bind_eq_bind, Option.bind_some,
    Entry.meant, hn, if_neg hlong, hslice, hdrop]
  rfl

/-- An entry whose records fit reads back, and leaves what follows it. -/
theorem readOne_entry (he : e.Allowed) (hroom : e.header.pax.length < 8 ^ 11) (rest : Bytes) :
    readOne (entryBytes e ++ rest) = some (e.meant, rest) := by
  obtain ⟨u, hread, hflag, -⟩ := readHeader_entry he
  obtain ⟨records, hr, hpax⟩ := records_eq_ok he.nsecs
  have hback := readPax_pax he hr
  have hhead := @length_ustar e.header.path e.header.kind.flag e.header e.header.contents
  unfold entryBytes
  by_cases hnil : e.header.pax = []
  · rw [hnil] at hback
    obtain rfl : [] = records := Option.some.inj hback
    have hne : u.flag ≠ 120 := by
      rw [hflag]
      cases e.header.kind <;> decide
    rw [if_pos hnil, List.nil_append, List.append_assoc]
    simp only [readOne, take_head hhead, hread, Option.bind_eq_bind, Option.bind_some, if_neg hne]
    exact readMember_entry he hr rest
  · obtain ⟨x, hx, hxflag, hxsize⟩ := readHeader_extended he e.header.pax.length
    rw [fieldValue, if_pos hroom] at hxsize
    have hxlen := @length_ustar (ascii "PaxHeaders/" ++ (baseName e.header.path).take 80) 120
      { mode := 0o644, mtime := ⟨max e.header.mtime.secs 0, 0⟩ } e.header.pax.length
    rw [if_neg hnil, extendedHeader]
    generalize (ustar (ascii "PaxHeaders/" ++ (baseName e.header.path).take 80) 120
      { mode := 0o644, mtime := ⟨max e.header.mtime.secs 0, 0⟩ } e.header.pax.length).1 = xb at hx hxlen ⊢
    generalize hbody : (ustar e.header.path e.header.kind.flag e.header e.header.contents).1 ++
      ((e.pieces.flatten ++ List.replicate (padding e.header.contents) 0) ++ rest) = body
    have hall : xb ++ e.header.pax ++ List.replicate (padding e.header.pax.length) 0 ++
        (ustar e.header.path e.header.kind.flag e.header e.header.contents).1 ++
          (e.pieces.flatten ++ List.replicate (padding e.header.contents) 0) ++ rest =
        xb ++ (e.header.pax ++ (List.replicate (padding e.header.pax.length) 0 ++ body)) := by
      rw [← hbody]
      simp only [List.append_assoc]
    have hslice : slice (xb ++ (e.header.pax ++
        (List.replicate (padding e.header.pax.length) 0 ++ body))) BLOCK e.header.pax.length =
        e.header.pax := by
      rw [← hxlen, ← Nat.add_zero xb.length, slice_append_right,
        slice_append_left (Nat.zero_add _).le]
      exact slice_zero_length _
    have hdrop : (xb ++ (e.header.pax ++ (List.replicate (padding e.header.pax.length) 0 ++ body))).drop
        (BLOCK + e.header.pax.length + padding e.header.pax.length) = body := by
      rw [← List.append_assoc, ← List.append_assoc]
      exact List.drop_left' (by simp only [List.length_append, List.length_replicate, hxlen])
    have hlong : ¬(xb ++ (e.header.pax ++
        (List.replicate (padding e.header.pax.length) 0 ++ body))).length <
          BLOCK + e.header.pax.length := by
      simp only [List.length_append, hxlen]
      omega
    rw [hall]
    simp only [readOne, take_head hxlen, hx, Option.bind_eq_bind, Option.bind_some, hxflag, if_true,
      hxsize, if_neg hlong, hslice, hback, hdrop]
    rw [← hbody]
    exact readMember_entry he hr rest

end

end FioXfs.Tar
