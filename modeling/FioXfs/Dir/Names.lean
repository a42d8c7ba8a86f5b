import FioXfs.Dir.Bounds
set_option autoImplicit false

/-!
# The names a directory stores

What the parsers return, told by the bytes alone: where a cursor that goes over entries in order
stands, and which bytes it finds there.  A parser returns the names of a buffer exactly when the
cursor gets to the end.
-/

namespace FioXfs.Dir

open FioXfs.Lib

/-! ## Data blocks -/

/-- The name stored at offset `p` of a data block. -/
def nameAt (buf : Bytes) (p : Nat) : Bytes := slice buf (p + 9) (getBe 1 buf (p + 8))

/-- A name, and no free region, is at offset `p`. -/
def HasName (buf : Bytes) (stop p : Nat) : Prop := p < stop ∧ be16 buf p ≠ 0xffff

section
variable {sb : Superblock} {buf : Bytes} {dirIno stop p q : Nat}

/-- From a free region the cursor goes on behind it. -/
theorem reached_free_iff (h8 : p + 8 ≤ stop) (htag : be16 buf p = 0xffff)
    (hge : 8 ≤ be16 buf (p + 2)) (hmod : be16 buf (p + 2) % 8 = 0) :
    Reached sb buf stop p q ↔ q = p ∨ Reached sb buf stop (p + be16 buf (p + 2)) q := by
  constructor
  · intro h
    cases h with
    | here => exact Or.inl rfl
    | free _ _ _ _ h => exact Or.inr h
    | name _ hne _ _ _ _ => exact absurd htag hne
  · rintro (rfl | h)
    · exact .here q
    · exact .free h8 htag hge hmod h

/-- From a name it goes on behind the name's entry. -/
theorem reached_name_iff (h8 : p + 8 ≤ stop) (htag : be16 buf p ≠ 0xffff) (hin : p + 8 < buf.length)
    (hlen : getBe 1 buf (p + 8) ≠ 0) (hend : p + entryLen sb (getBe 1 buf (p + 8)) ≤ stop) :
    Reached sb buf stop p q ↔
      q = p ∨ Reached sb buf stop (p + entryLen sb (getBe 1 buf (p + 8))) q := by
  constructor
  · intro h
    cases h with
    | here => exact Or.inl rfl
    | free _ htag' _ _ _ => exact absurd htag' htag
    | name _ _ _ _ _ h => exact Or.inr h
  · rintro (rfl | h)
    · exact .here q
    · exact .name h8 htag hin hlen hend h

/-- The names read from a block: the cursor has got to the end, and they are the names that it has
stood at. -/
theorem reached_of_dataEntries : ∀ {fuel p : Nat} {names : List RawEntry},
    dataEntries sb buf dirIno stop fuel p = .ok names →
      (∃ q, stop ≤ q ∧ Reached sb buf stop p q) ∧ ∀ name, (∃ e ∈ names, e.name = name) ↔
        ∃ r, Reached sb buf stop p r ∧ HasName buf stop r ∧ nameAt buf r = name := by
  have hpast : ∀ {p : Nat}, stop ≤ p → (∃ q, stop ≤ q ∧ Reached sb buf stop p q) ∧
      ∀ name, (∃ e ∈ ([] : List RawEntry), e.name = name) ↔
        ∃ r, Reached sb buf stop p r ∧ HasName buf stop r ∧ nameAt buf r = name := by
    intro p hp
    refine ⟨⟨p, hp, .here p⟩, fun name => iff_of_false (by simp) ?_⟩
    rintro ⟨r, hr, hname, -⟩
    rw [hr.eq_of_le hp] at hname
    exact absurd hname.1 (not_lt.mpr hp)
  intro fuel
  induction fuel with
  | zero =>
    intro p names h
    simp only [dataEntries] at h
    split at h
    · cases h
    · cases h
      exact hpast (by omega)
  | succ fuel ih =>
    intro p names h
    unfold dataEntries at h
    split at h
    · cases h
      exact hpast (by assumption)
    simp only [except_bind_eq_ok, except_throwIf_eq_ok, exists_const] at h
    obtain ⟨h8, h⟩ := h
    split at h
    · rename_i htag
      simp only [except_bind_eq_ok, except_throwIf_eq_ok, exists_const] at h
      obtain ⟨hlen, h⟩ := h
      obtain ⟨⟨q, hq, hreach⟩, hnames⟩ := ih h
      have hiff := fun q => @reached_free_iff sb buf stop p q (by omega) htag (by omega) (by omega)
      refine ⟨⟨q, hq, (hiff q).mpr (Or.inr hreach)⟩, fun name => (hnames name).trans ?_⟩
      constructor
      · rintro ⟨r, hr, hrest⟩
        exact ⟨r, (hiff r).mpr (Or.inr hr), hrest⟩
      · rintro ⟨r, hr, hname, hrest⟩
        rcases (hiff r).mp hr with rfl | hr
        · exact absurd htag hname.2
        · exact ⟨r, hr, hname, hrest⟩
    · rename_i htag
      simp only [except_bind_eq_ok, except_throwIf_eq_ok, exists_const] at h
      obtain ⟨h9, hlen, rest, hrest, h⟩ := h
      cases h
      obtain ⟨⟨q, hq, hreach⟩, hnames⟩ := ih hrest
      have hiff := fun q => @reached_name_iff sb buf stop p q (by omega) htag (by omega) (by omega)
        (by omega)
      refine ⟨⟨q, hq, (hiff q).mpr (Or.inr hreach)⟩, fun name => ?_⟩
      constructor
      · rintro ⟨e, he, rfl⟩
        rcases List.mem_cons.mp he with rfl | he
        · exact ⟨p, .here p, ⟨by omega, htag⟩, rfl⟩
        · obtain ⟨r, hr, hname⟩ := (hnames e.name).mp ⟨e, he, rfl⟩
          exact ⟨r, (hiff r).mpr (Or.inr hr), hname⟩
      · rintro ⟨r, hr, hname, rfl⟩
        rcases (hiff r).mp hr with rfl | hr
        · exact ⟨_, List.mem_cons_self, rfl⟩
        · obtain ⟨e, he, heq⟩ := (hnames _).mpr ⟨r, hr, hname, rfl⟩
          exact ⟨e, List.mem_cons_of_mem _ he, heq⟩

/-- Names are read from a block whose cursor gets to the end. -/
theorem dataEntries_of_reached (h : Reached sb buf stop p q) (hq : stop ≤ q) : ∀ {fuel : Nat},
    stop ≤ p + 8 * fuel → ∃ names, dataEntries sb buf dirIno stop fuel p = .ok names := by
  induction h with
  | here p =>
    intro fuel hfuel
    cases fuel with
    | zero => exact ⟨[], by rw [dataEntries, if_neg (by omega)]; rfl⟩
    | succ fuel => exact ⟨[], by rw [dataEntries, if_pos hq]; rfl⟩
  | @free p q h8 htag hge hmod _ ih =>
    intro fuel hfuel
    cases fuel with
    | zero => omega
    | succ fuel =>
      obtain ⟨names, hnames⟩ := ih hq (show stop ≤ p + be16 buf (p + 2) + 8 * fuel by omega)
      refine ⟨names, ?_⟩
      rw [dataEntries, if_neg (by omega), except_throwIf_bind_of_not (by omega), if_pos htag,
        except_throwIf_bind_of_not (by omega), hnames]
  | @name p q h8 htag hin hlen hend _ ih =>
    intro fuel hfuel
    cases fuel with
    | zero => omega
    | succ fuel =>
      have hge := @entryLen_ge sb (getBe 1 buf (p + 8))
      obtain ⟨names, hnames⟩ :=
        ih hq (show stop ≤ p + entryLen sb (getBe 1 buf (p + 8)) + 8 * fuel by omega)
      refine ⟨⟨nameAt buf p, be64 buf p, ftypeAt sb buf (p + 9 + getBe 1 buf (p + 8))⟩ :: names, ?_⟩
      rw [dataEntries, if_neg (by omega), except_throwIf_bind_of_not (by omega), if_neg htag,
        except_throwIf_bind_of_not (by omega)]
      dsimp only
      rw [except_throwIf_bind_of_not (by omega), hnames]
      rfl

/-- Every name stored in a block that reads is as `good` says. -/
def BlockNames (sb : Superblock) (buf : Bytes) (dirIno : Nat) (good : Bytes → Prop) : Prop :=
  ∀ hdr blockForm stop, dataForm sb buf dirIno = .ok (hdr, blockForm) →
    checkDataBlock sb buf dirIno = .ok () → namesEnd buf dirIno hdr blockForm = .ok stop →
      (∃ q, stop ≤ q ∧ Reached sb buf stop hdr q) →
        ∀ r, Reached sb buf stop hdr r → HasName buf stop r → good (nameAt buf r)

/-- The names `parse_data_block` returns are those stored. -/
theorem blockNames_iff {good : Bytes → Prop} : BlockNames sb buf dirIno good ↔
    ∀ names, parseDataBlock sb buf dirIno = .ok names → ∀ e ∈ names, good e.name := by
  constructor
  · intro h names hnames e he
    obtain ⟨form, hform, hnames⟩ := except_bind_eq_ok.mp hnames
    obtain ⟨_, hcheck, hnames⟩ := except_bind_eq_ok.mp hnames
    obtain ⟨stop, hstop, hnames⟩ := except_bind_eq_ok.mp hnames
    obtain ⟨hends, hall⟩ := reached_of_dataEntries hnames
    obtain ⟨r, hr, hname, heq⟩ := (hall e.name).mp ⟨e, he, rfl⟩
    rw [← heq]
    exact h _ _ stop hform hcheck hstop hends r hr hname
  · rintro h hdr blockForm stop hform hcheck hstop ⟨q, hq, hreach⟩ r hr hname
    have hle := namesEnd_le hstop
    obtain ⟨names, hnames⟩ := @dataEntries_of_reached sb buf dirIno stop hdr q hreach hq buf.length
      (by omega)
    have hparse : parseDataBlock sb buf dirIno = .ok names := by
      rw [parseDataBlock, hform, except_ok_bind]
      dsimp only
      rw [hcheck, except_ok_bind, hstop, except_ok_bind, hnames]
    obtain ⟨e, he, heq⟩ := ((reached_of_dataEntries hnames).2 _).mpr ⟨r, hr, hname, rfl⟩
    exact heq ▸ h names hparse e he

/-! ## Short form -/

/-- The name stored at offset `p` of a short form. -/
def shortNameAt (buf : Bytes) (p : Nat) : Bytes := slice buf (p + 3) (getBe 1 buf p)

/-- The cursor gets from one offset to another over some short-form entries that are in order. -/
inductive ShortReached (sb : Superblock) (isz : Nat) (buf : Bytes) : Nat → Nat → Nat → Prop where
  | here (p : Nat) : ShortReached sb isz buf 0 p p
  | next {n p q : Nat} : getBe 1 buf p ≠ 0 →
      p + 3 + getBe 1 buf p + ftypeLen sb + isz ≤ buf.length →
      ShortReached sb isz buf n (p + 3 + getBe 1 buf p + ftypeLen sb + isz) q →
      ShortReached sb isz buf (n + 1) p q

variable {isz : Nat}

theorem shortReached_zero_iff : ShortReached sb isz buf 0 p q ↔ q = p := by
  constructor
  · intro h
    cases h
    rfl
  · rintro rfl
    exact .here q

theorem shortReached_succ_iff {n : Nat} : ShortReached sb isz buf (n + 1) p q ↔
    getBe 1 buf p ≠ 0 ∧ p + 3 + getBe 1 buf p + ftypeLen sb + isz ≤ buf.length ∧
      ShortReached sb isz buf n (p + 3 + getBe 1 buf p + ftypeLen sb + isz) q := by
  constructor
  · intro h
    cases h with
    | next hlen hend h => exact ⟨hlen, hend, h⟩
  · rintro ⟨hlen, hend, h⟩
    exact .next hlen hend h

theorem inoAt_eq_ok {o ino : Nat} :
    inoAt isz buf o = .ok ino ↔ o + isz ≤ buf.length ∧ getBe isz buf o = ino := by
  rw [inoAt, except_bind_eq_ok]
  simp only [except_throwIf_eq_ok, exists_const, not_lt]
  exact and_congr_right fun _ => ⟨fun h => by cases h; rfl, fun h => by rw [h]; rfl⟩

/-- The entries read from a short form: the cursor has gone over all, and they have the names it
has stood at, none of them empty. -/
theorem shortReached_of_shortEntries : ∀ {count p : Nat} {names : List RawEntry},
    shortEntries sb isz buf count p = .ok names →
      (∃ q, ShortReached sb isz buf count p q) ∧ (∀ e ∈ names, e.name ≠ []) ∧
      ∀ name, (∃ e ∈ names, e.name = name) ↔
        ∃ n < count, ∃ r, ShortReached sb isz buf n p r ∧ shortNameAt buf r = name := by
  intro count
  induction count with
  | zero =>
    intro p names h
    cases h
    exact ⟨⟨p, .here p⟩, by simp, fun name => by simp⟩
  | succ count ih =>
    intro p names h
    rw [shortEntries] at h
    simp only [except_bind_eq_ok, except_throwIf_eq_ok, exists_const] at h
    obtain ⟨h3, hlen, ino, hino, rest, hrest, h⟩ := h
    cases h
    obtain ⟨hend, -⟩ := inoAt_eq_ok.mp hino
    obtain ⟨⟨q, hq⟩, hne, hnames⟩ := ih hrest
    have hlen0 : getBe 1 buf p ≠ 0 := by omega
    have hname : (shortNameAt buf p).length = getBe 1 buf p := length_slice (by omega)
    refine ⟨⟨q, .next hlen0 hend hq⟩, List.forall_mem_cons.mpr ⟨fun hnil => ?_, hne⟩, fun name => ?_⟩
    · exact hlen0 (hname.symm.trans (List.length_eq_zero_iff.mpr hnil))
    constructor
    · rintro ⟨e, he, rfl⟩
      rcases List.mem_cons.mp he with rfl | he
      · exact ⟨0, by omega, p, .here p, rfl⟩
      · obtain ⟨n, hn, r, hr, heq⟩ := (hnames e.name).mp ⟨e, he, rfl⟩
        exact ⟨n + 1, by omega, r, .next hlen0 hend hr, heq⟩
    · rintro ⟨n, hn, r, hr, rfl⟩
      cases n with
      | zero =>
        obtain rfl := shortReached_zero_iff.mp hr
        exact ⟨_, List.mem_cons_self, rfl⟩
      | succ n =>
        obtain ⟨-, -, hr⟩ := shortReached_succ_iff.mp hr
        obtain ⟨e, he, heq⟩ := (hnames _).mpr ⟨n, by omega, r, hr, rfl⟩
        exact ⟨e, List.mem_cons_of_mem _ he, heq⟩

/-- Entries are read from a short form whose cursor goes over all of them. -/
theorem shortEntries_of_shortReached {count : Nat} (h : ShortReached sb isz buf count p q) :
    ∃ names, shortEntries sb isz buf count p = .ok names := by
  induction h with
  | here p => exact ⟨[], rfl⟩
  | @next n p q hlen hend _ ih =>
    obtain ⟨names, hnames⟩ := ih
    refine ⟨⟨shortNameAt buf p, getBe isz buf (p + 3 + getBe 1 buf p + ftypeLen sb),
      ftypeAt sb buf (p + 3 + getBe 1 buf p)⟩ :: names, ?_⟩
    have hino := inoAt_eq_ok.mpr (And.intro (show p + 3 + getBe 1 buf p + ftypeLen sb + isz ≤ buf.length
      by omega) rfl)
    rw [shortEntries, except_throwIf_bind_of_not (by omega)]
    dsimp only
    rw [except_throwIf_bind_of_not (by omega), hino, except_ok_bind, hnames]
    rfl

/-- The bytes an inode number takes in a short form. -/
def shortInoLen (fork : Bytes) : Nat := if 0 < getBe 1 fork 1 then 8 else 4

/-- Every name stored in a short form that reads is as `good` says. -/
def ShortNames (sb : Superblock) (fork : Bytes) (size : Nat) (good : Bytes → Prop) : Prop :=
  6 ≤ size → size ≤ fork.length → 2 + shortInoLen (fork.take size) ≤ size →
    (∃ q, ShortReached sb (shortInoLen (fork.take size)) (fork.take size)
      (getBe 1 (fork.take size) 0) (2 + shortInoLen (fork.take size)) q) →
    ∀ n < getBe 1 (fork.take size) 0, ∀ r, ShortReached sb (shortInoLen (fork.take size))
      (fork.take size) n (2 + shortInoLen (fork.take size)) r → good (shortNameAt (fork.take size) r)

variable {fork : Bytes} {size : Nat}

theorem parseShortform_eq_ok {parent : Nat} {names : List RawEntry} :
    parseShortform sb fork size = .ok (parent, names) ↔ 6 ≤ size ∧ size ≤ fork.length ∧
      inoAt (shortInoLen (fork.take size)) (fork.take size) 2 = .ok parent ∧
      shortEntries sb (shortInoLen (fork.take size)) (fork.take size) (getBe 1 (fork.take size) 0)
        (2 + shortInoLen (fork.take size)) = .ok names := by
  rw [parseShortform, except_bind_eq_ok]
  simp only [except_throwIf_eq_ok, exists_const, not_or, not_lt, and_assoc]
  refine and_congr_right fun _ => and_congr_right fun _ => ?_
  change (inoAt _ _ 2 >>= fun parent => shortEntries _ _ _ _ _ >>= fun names =>
    pure (parent, names)) = _ ↔ _
  constructor
  · intro h
    obtain ⟨parent', hparent, h⟩ := except_bind_eq_ok.mp h
    obtain ⟨names', hnames, h⟩ := except_bind_eq_ok.mp h
    cases h
    exact ⟨hparent, hnames⟩
  · rintro ⟨hparent, hnames⟩
    exact except_bind_eq_ok.mpr ⟨_, hparent, except_bind_eq_ok.mpr ⟨_, hnames, rfl⟩⟩

/-- The names `parse_shortform` returns are those stored. -/
theorem shortNames_iff {good : Bytes → Prop} : ShortNames sb fork size good ↔
    ∀ parent names, parseShortform sb fork size = .ok (parent, names) → ∀ e ∈ names, good e.name := by
  constructor
  · intro h parent names hparse e he
    obtain ⟨h6, hfork, hparent, hnames⟩ := parseShortform_eq_ok.mp hparse
    obtain ⟨hends, -, hall⟩ := shortReached_of_shortEntries hnames
    obtain ⟨n, hn, r, hr, heq⟩ := (hall e.name).mp ⟨e, he, rfl⟩
    obtain ⟨hroom, -⟩ := inoAt_eq_ok.mp hparent
    rw [List.length_take, Nat.min_eq_left hfork] at hroom
    exact heq ▸ h h6 hfork hroom hends n hn r hr
  · rintro h h6 hfork hroom ⟨q, hq⟩ n hn r hr
    obtain ⟨names, hnames⟩ := shortEntries_of_shortReached hq
    have hlen : (fork.take size).length = size := by rw [List.length_take, Nat.min_eq_left hfork]
    have hparse := parseShortform_eq_ok.mpr ⟨h6, hfork, inoAt_eq_ok.mpr ⟨hlen.symm ▸ hroom, rfl⟩, hnames⟩
    obtain ⟨e, he, heq⟩ := ((shortReached_of_shortEntries hnames).2.2 _).mpr ⟨n, hn, r, hr, rfl⟩
    exact heq ▸ h _ names hparse e he

/-- No name that is returned is empty. -/
theorem ne_nil_of_parseShortform {parent : Nat} {names : List RawEntry}
    (h : parseShortform sb fork size = .ok (parent, names)) : ∀ e ∈ names, e.name ≠ [] :=
  (shortReached_of_shortEntries (parseShortform_eq_ok.mp h).2.2.2).2.1

theorem ne_nil_of_parseDataBlock {names : List RawEntry} (h : parseDataBlock sb buf dirIno = .ok names) :
    ∀ e ∈ names, e.name ≠ [] := by
  obtain ⟨form, hform, h⟩ := except_bind_eq_ok.mp h
  obtain ⟨_, hcheck, h⟩ := except_bind_eq_ok.mp h
  obtain ⟨stop, hstop, h⟩ := except_bind_eq_ok.mp h
  exact fun e he => (names_inside (namesEnd_le hstop) (le_refl _) h e he).1

end

end FioXfs.Dir
