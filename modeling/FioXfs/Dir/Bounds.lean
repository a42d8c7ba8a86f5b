import FioXfs.Checked
import FioXfs.Dir
import FioXfs.Geometry
set_option autoImplicit false

/-!
# Indexes into a directory block

`parse_data_block` with every index it takes checked, as Rust checks it: past the end the
program stops.  The cursor moves by lengths read from the block, and each group of reads has a
check before it; the one byte that holds a name's length does not.
-/

namespace FioXfs.Dir

open FioXfs.Lib

/-! ## Checked reads -/

/-- The type in the byte after a name, when there is one. -/
def readFtype (sb : Superblock) (buf : Bytes) (o : Nat) : Result FileType :=
  if sb.hasFtype then do
    let b ← readBe 1 buf o
    return .fromFtype b
  else return .unknown

section
variable {sb : Superblock} {buf : Bytes} {dirIno stop : Nat}

theorem readFtype_ok {o : Nat} (h : o + ftypeLen sb ≤ buf.length) :
    readFtype sb buf o = .ok (ftypeAt sb buf o) := by
  unfold readFtype ftypeAt
  unfold ftypeLen at h
  split
  · rename_i hft
    rw [if_pos hft] at h
    rw [readBe_ok h]
    rfl
  · rfl

/-! ## The parser, index by index -/

/-- The entries from offset `p` to `stop`, each index checked. -/
def checkedEntries (sb : Superblock) (buf : Bytes) (dirIno stop : Nat) :
    Nat → Nat → Result (List RawEntry)
  | 0, p => if p < stop then .error (.panic "out of fuel") else return []
  | fuel + 1, p => do
      if stop ≤ p then return []
      let offBlock : Error := .corrupt s!"directory {dirIno}: entry runs off the block"
      failIf (stop < p + 8) offBlock
      let tag ← readBe 2 buf p
      if tag = 0xffff then do
        let len ← readBe 2 buf (p + 2)
        failIf (len < 8 ∨ len % 8 ≠ 0)
          (.corrupt s!"directory {dirIno}: free space of {len} bytes")
        checkedEntries sb buf dirIno stop fuel (p + len)
      else do
        let ino ← readBe 8 buf p
        let namelen ← readBe 1 buf (p + 8)
        let len := entryLen sb namelen
        failIf (namelen = 0 ∨ stop < p + len) offBlock
        let name ← readPart buf (p + 9) namelen
        let t ← readFtype sb buf (p + 9 + namelen)
        let rest ← checkedEntries sb buf dirIno stop fuel (p + len)
        return ⟨name, ino, t⟩ :: rest

/-- The checksum and the owner of a v5 block. -/
def checkedHeader (sb : Superblock) (buf : Bytes) (dirIno : Nat) : Result Unit :=
  if sb.isV5 then do
    failIf (Crc.verify buf 4 = false) (.corrupt s!"directory {dirIno}: data block checksum")
    let owner ← readBe 8 buf 40
    failIf (owner ≠ dirIno) (.corrupt s!"directory {dirIno}: data block owned by {owner}")
  else .ok ()

/-- Where a block's names stop. -/
def checkedEnd (buf : Bytes) (dirIno hdr : Nat) (blockForm : Bool) : Result Nat :=
  if blockForm then do
    failIf (buf.length < 8) (.panic "attempt to subtract with overflow")
    let count ← readBe 4 buf (buf.length - 8)
    failIf (buf.length < 8 + count * 8 + hdr)
      (.corrupt s!"directory {dirIno}: block tail count {count}")
    return buf.length - (8 + count * 8)
  else .ok buf.length

/-- One directory data block, each index checked. -/
def checkedDataBlock (sb : Superblock) (buf : Bytes) (dirIno : Nat) : Result (List RawEntry) := do
  let _ ← readBe 4 buf 0
  let (hdr, blockForm) ← dataForm sb buf dirIno
  checkedHeader sb buf dirIno
  let stop ← checkedEnd buf dirIno hdr blockForm
  checkedEntries sb buf dirIno stop buf.length hdr

theorem entryLen_ge (namelen : Nat) : 11 + namelen + ftypeLen sb ≤ entryLen sb namelen := by
  unfold entryLen
  omega

/-- The listing reads exactly what the checked one does: the only index its bounds do not cover
is the one it checks. -/
theorem checkedEntries_eq (hstop : stop ≤ buf.length) :
    ∀ {fuel p : Nat}, checkedEntries sb buf dirIno stop fuel p =
      dataEntries sb buf dirIno stop fuel p := by
  intro fuel
  induction fuel with
  | zero =>
    intro p
    rfl
  | succ fuel ih =>
    intro p
    unfold checkedEntries dataEntries
    split
    · rfl
    · by_cases h8 : stop < p + 8
      · rw [except_throwIf_bind_of h8, except_throwIf_bind_of h8]
      · rw [except_throwIf_bind_of_not h8, except_throwIf_bind_of_not h8, readBe_ok (by omega),
          except_ok_bind]
        split
        · rw [readBe_ok (by omega), except_ok_bind]
          simp only [ih]
        · rw [readBe_ok (by omega), except_ok_bind]
          by_cases h9 : buf.length ≤ p + 8
          · rw [readBe_past (by omega), except_throwIf_bind_of h9]
            rfl
          · rw [readBe_ok (by omega), except_ok_bind, except_throwIf_bind_of_not h9]
            by_cases hlen : getBe 1 buf (p + 8) = 0 ∨ stop < p + entryLen sb (getBe 1 buf (p + 8))
            · simp only [except_throwIf_bind_of hlen]
            · have hge := @entryLen_ge sb (getBe 1 buf (p + 8))
              simp only [except_throwIf_bind_of_not hlen]
              rw [readPart_ok (by omega), except_ok_bind, readFtype_ok (by omega), except_ok_bind, ih]

theorem namesEnd_le {hdr : Nat} {blockForm : Bool}
    (h : namesEnd buf dirIno hdr blockForm = .ok stop) : stop ≤ buf.length := by
  unfold namesEnd at h
  split at h
  · obtain ⟨_, -, h⟩ := except_bind_eq_ok.mp h
    cases h
    exact Nat.sub_le _ _
  · cases h
    exact le_refl _

theorem checkedDataBlock_eq (h512 : 512 ≤ buf.length) :
    checkedDataBlock sb buf dirIno = parseDataBlock sb buf dirIno := by
  have hhead : checkedHeader sb buf dirIno = checkDataBlock sb buf dirIno := by
    unfold checkedHeader checkDataBlock
    rw [readBe_ok (by omega)]
    rfl
  have hend : ∀ hdr blockForm, checkedEnd buf dirIno hdr blockForm =
      namesEnd buf dirIno hdr blockForm := by
    intro hdr blockForm
    unfold checkedEnd namesEnd
    rw [except_throwIf_bind_of_not (by omega), readBe_ok (by omega)]
    rfl
  unfold checkedDataBlock parseDataBlock
  rw [readBe_ok (by omega), except_ok_bind, hhead]
  refine bind_congr fun form => bind_congr fun _ => ?_
  rw [hend]
  cases h : namesEnd buf dirIno form.1 form.2 with
  | error e => rfl
  | ok stop => exact checkedEntries_eq (namesEnd_le h)

/-! ## Where the cursor goes -/

/-- The cursor gets from one offset to another over free regions and names that are in order. -/
inductive Reached (sb : Superblock) (buf : Bytes) (stop : Nat) : Nat → Nat → Prop where
  | here (p : Nat) : Reached sb buf stop p p
  | free {p q : Nat} : p + 8 ≤ stop → be16 buf p = 0xffff → 8 ≤ be16 buf (p + 2) →
      be16 buf (p + 2) % 8 = 0 → Reached sb buf stop (p + be16 buf (p + 2)) q →
      Reached sb buf stop p q
  | name {p q : Nat} : p + 8 ≤ stop → be16 buf p ≠ 0xffff → p + 8 < buf.length →
      getBe 1 buf (p + 8) ≠ 0 → p + entryLen sb (getBe 1 buf (p + 8)) ≤ stop →
      Reached sb buf stop (p + entryLen sb (getBe 1 buf (p + 8))) q → Reached sb buf stop p q

theorem Reached.eq_of_le {p q : Nat} (h : Reached sb buf stop p q) (hp : stop ≤ p) : q = p := by
  cases h <;> omega

/-- The cursor stands eight bytes before the end of the buffer, at a name. -/
def AtLastTag (buf : Bytes) (stop q : Nat) : Prop :=
  q + 8 ≤ stop ∧ buf.length ≤ q + 8 ∧ be16 buf q ≠ 0xffff

/-- The loop ends, and stops the program exactly when the cursor gets to a name in the last eight
bytes. -/
theorem dataEntries_panics_iff :
    ∀ {fuel p : Nat}, stop ≤ p + 8 * fuel →
      ((∃ why, dataEntries sb buf dirIno stop fuel p = .error (.panic why)) ↔
        ∃ q, Reached sb buf stop p q ∧ AtLastTag buf stop q) := by
  intro fuel
  induction fuel with
  | zero =>
    intro p hfuel
    have hend : ¬p < stop := by omega
    constructor
    · rintro ⟨why, h⟩
      simp only [dataEntries, if_neg hend] at h
      cases h
    · rintro ⟨q, hq, h8, -⟩
      cases hq <;> omega
  | succ fuel ih =>
    intro p hfuel
    unfold dataEntries
    by_cases hend : stop ≤ p
    · rw [if_pos hend]
      constructor
      · rintro ⟨why, h⟩
        cases h
      · rintro ⟨q, hq, h8, -⟩
        cases hq <;> omega
    rw [if_neg hend]
    by_cases h8 : stop < p + 8
    · simp only [except_throwIf_bind_of h8]
      constructor
      · rintro ⟨why, h⟩
        cases h
      · rintro ⟨q, hq, h8', -⟩
        cases hq <;> omega
    simp only [except_throwIf_bind_of_not h8]
    by_cases htag : be16 buf p = 0xffff
    · rw [if_pos htag]
      by_cases hlen : be16 buf (p + 2) < 8 ∨ be16 buf (p + 2) % 8 ≠ 0
      · simp only [except_throwIf_bind_of hlen]
        constructor
        · rintro ⟨why, h⟩
          cases h
        · rintro ⟨q, hq, -, hlast, htag'⟩
          cases hq with
          | here => exact absurd htag htag'
          | free _ _ hge hmod _ => omega
          | name _ hne _ _ _ _ => exact absurd htag hne
      · simp only [except_throwIf_bind_of_not hlen]
        rw [ih (by omega)]
        constructor
        · rintro ⟨q, hq, hlast⟩
          exact ⟨q, .free (by omega) htag (by omega) (by omega) hq, hlast⟩
        · rintro ⟨q, hq, hlast⟩
          cases hq with
          | here => exact absurd htag hlast.2.2
          | free _ _ _ _ hq => exact ⟨q, hq, hlast⟩
          | name _ hne _ _ _ _ => exact absurd htag hne
    · rw [if_neg htag]
      by_cases h9 : buf.length ≤ p + 8
      · simp only [except_throwIf_bind_of h9]
        exact ⟨fun _ => ⟨p, .here p, by omega, h9, htag⟩, fun _ => ⟨_, rfl⟩⟩
      simp only [except_throwIf_bind_of_not h9]
      by_cases hlen : getBe 1 buf (p + 8) = 0 ∨ stop < p + entryLen sb (getBe 1 buf (p + 8))
      · simp only [except_throwIf_bind_of hlen]
        constructor
        · rintro ⟨why, h⟩
          cases h
        · rintro ⟨q, hq, -, hlast, htag'⟩
          cases hq with
          | here => omega
          | free _ htag' _ _ _ => exact absurd htag' htag
          | name _ _ _ hne hle _ => omega
      · simp only [except_throwIf_bind_of_not hlen]
        have hge := @entryLen_ge sb (getBe 1 buf (p + 8))
        have hrest := @ih (p + entryLen sb (getBe 1 buf (p + 8))) (by omega)
        constructor
        · rintro ⟨why, h⟩
          obtain h | ⟨rest, -, h⟩ := except_bind_eq_error.mp h
          · obtain ⟨q, hq, hlast⟩ := hrest.mp ⟨why, h⟩
            exact ⟨q, .name (by omega) htag (by omega) (by omega) (by omega) hq, hlast⟩
          · cases h
        · rintro ⟨q, hq, hlast⟩
          cases hq with
          | here => exact absurd hlast.2.1 h9
          | free _ htag' _ _ _ => exact absurd htag' htag
          | name _ _ _ _ _ hq =>
            obtain ⟨why, h⟩ := hrest.mpr ⟨q, hq, hlast⟩
            exact ⟨why, by rw [h]; rfl⟩

/-! ## Where the names lie -/

/-- An entry's name lies between the header and the end of the entry area. -/
def NameInside (buf : Bytes) (hdr stop : Nat) (e : RawEntry) : Prop :=
  e.name ≠ [] ∧ ∃ o, hdr ≤ o ∧ o + e.name.length ≤ stop ∧ e.name = slice buf o e.name.length

theorem names_inside {hdr : Nat} (hstop : stop ≤ buf.length) :
    ∀ {fuel p : Nat} {names : List RawEntry}, hdr ≤ p →
      dataEntries sb buf dirIno stop fuel p = .ok names → ∀ e ∈ names, NameInside buf hdr stop e := by
  intro fuel
  induction fuel with
  | zero =>
    intro p names hp h
    simp only [dataEntries] at h
    split at h <;> cases h
    exact fun e he => absurd he (List.not_mem_nil)
  | succ fuel ih =>
    intro p names hp h
    unfold dataEntries at h
    split at h
    · cases h
      exact fun e he => absurd he (List.not_mem_nil)
    simp only [except_bind_eq_ok, except_throwIf_eq_ok, exists_const] at h
    obtain ⟨h8, h⟩ := h
    split at h
    · obtain ⟨_, hlen, h⟩ := except_bind_eq_ok.mp h
      exact ih (by omega) h
    · simp only [except_bind_eq_ok, except_throwIf_eq_ok, exists_const] at h
      obtain ⟨h9, hlen, rest, hrest, h⟩ := h
      cases h
      have hge := @entryLen_ge sb (getBe 1 buf (p + 8))
      have hname : (slice buf (p + 9) (getBe 1 buf (p + 8))).length = getBe 1 buf (p + 8) :=
        length_slice (by omega)
      intro e he
      rcases List.mem_cons.mp he with rfl | he
      · refine ⟨fun hnil => ?_, p + 9, by omega, by rw [hname]; omega, by rw [hname]⟩
        have hzero := hname.symm.trans (List.length_eq_zero_iff.mpr hnil)
        omega
      · exact ih (by omega) hrest e he

/-! ## When every index is inside -/

/-- Every index is inside the buffer, the loop ends, and every name returned lies in the entry
area. -/
def ReadsInBounds (sb : Superblock) (buf : Bytes) (dirIno : Nat) : Prop :=
  (∀ why, checkedDataBlock sb buf dirIno ≠ .error (.panic why)) ∧
    ∀ names, checkedDataBlock sb buf dirIno = .ok names →
      ∃ hdr blockForm stop, dataForm sb buf dirIno = .ok (hdr, blockForm) ∧
        namesEnd buf dirIno hdr blockForm = .ok stop ∧ ∀ e ∈ names, NameInside buf hdr stop e

/-- The entries of a block without an index lead to a name in its last eight bytes. -/
def LeadsToLastTag (sb : Superblock) (buf : Bytes) (dirIno : Nat) : Prop :=
  ∃ hdr, dataForm sb buf dirIno = .ok (hdr, false) ∧ checkDataBlock sb buf dirIno = .ok () ∧
    Reached sb buf buf.length hdr (buf.length - 8) ∧ be16 buf (buf.length - 8) ≠ 0xffff

theorem namesEnd_ok {hdr : Nat} {blockForm : Bool} (h512 : 512 ≤ buf.length)
    (h : namesEnd buf dirIno hdr blockForm = .ok stop) :
    if blockForm then stop + 8 ≤ buf.length else stop = buf.length := by
  unfold namesEnd at h
  split
  · rename_i hb
    rw [if_pos hb] at h
    obtain ⟨_, -, h⟩ := except_bind_eq_ok.mp h
    cases h
    omega
  · rename_i hb
    rw [if_neg hb] at h
    cases h
    rfl

theorem parseDataBlock_eq_ok {names : List RawEntry} :
    parseDataBlock sb buf dirIno = .ok names ↔
      ∃ hdr blockForm stop, dataForm sb buf dirIno = .ok (hdr, blockForm) ∧
        checkDataBlock sb buf dirIno = .ok () ∧ namesEnd buf dirIno hdr blockForm = .ok stop ∧
        dataEntries sb buf dirIno stop buf.length hdr = .ok names := by
  unfold parseDataBlock
  simp only [except_bind_eq_ok]
  constructor
  · rintro ⟨⟨hdr, blockForm⟩, hform, ⟨⟩, hcheck, stop, hstop, h⟩
    exact ⟨hdr, blockForm, stop, hform, hcheck, hstop, h⟩
  · rintro ⟨hdr, blockForm, stop, hform, hcheck, hstop, h⟩
    exact ⟨(hdr, blockForm), hform, (), hcheck, stop, hstop, h⟩

/-- Only the loop over the entries can stop the program. -/
theorem parseDataBlock_panics (why : String) :
    parseDataBlock sb buf dirIno = .error (.panic why) ↔
      ∃ hdr blockForm stop, dataForm sb buf dirIno = .ok (hdr, blockForm) ∧
        checkDataBlock sb buf dirIno = .ok () ∧ namesEnd buf dirIno hdr blockForm = .ok stop ∧
        dataEntries sb buf dirIno stop buf.length hdr = .error (.panic why) := by
  have hform : dataForm sb buf dirIno ≠ .error (.panic why) := by
    unfold dataForm
    simp only
    split_ifs <;> simp
  have hcheck : checkDataBlock sb buf dirIno ≠ .error (.panic why) := by
    unfold checkDataBlock
    split
    · simp [except_bind_eq_error, except_throwIf_eq_error]
    · simp
  have hend : ∀ hdr blockForm, namesEnd buf dirIno hdr blockForm ≠ .error (.panic why) := by
    intro hdr blockForm
    unfold namesEnd
    split
    · simp [except_bind_eq_error, except_throwIf_eq_error, pure, Except.pure]
    · simp
  unfold parseDataBlock
  simp only [except_bind_eq_error]
  constructor
  · rintro (h | ⟨⟨hdr, blockForm⟩, h1, h | ⟨⟨⟩, h2, h | ⟨stop, h3, h⟩⟩⟩)
    · exact absurd h hform
    · exact absurd h hcheck
    · exact absurd h (hend _ _)
    · exact ⟨hdr, blockForm, stop, h1, h2, h3, h⟩
  · rintro ⟨hdr, blockForm, stop, h1, h2, h3, h⟩
    exact .inr ⟨(hdr, blockForm), h1, .inr ⟨(), h2, .inr ⟨stop, h3, h⟩⟩⟩

theorem parseDataBlock_panics_iff (h512 : 512 ≤ buf.length) :
    (∃ why, parseDataBlock sb buf dirIno = .error (.panic why)) ↔ LeadsToLastTag sb buf dirIno := by
  constructor
  · rintro ⟨why, h⟩
    obtain ⟨hdr, blockForm, stop, hform, hcheck, hend, h⟩ := (parseDataBlock_panics why).mp h
    have hstop := namesEnd_ok h512 hend
    have hfuel : stop ≤ hdr + 8 * buf.length := by split at hstop <;> omega
    obtain ⟨q, hq, h8, hlast, htag⟩ := (dataEntries_panics_iff hfuel).mp ⟨why, h⟩
    cases blockForm with
    | true =>
      rw [if_pos rfl] at hstop
      omega
    | false =>
      obtain rfl : stop = buf.length := by simpa using hstop
      obtain rfl : q = buf.length - 8 := by omega
      exact ⟨hdr, hform, hcheck, hq, htag⟩
  · rintro ⟨hdr, hform, hcheck, hq, htag⟩
    have hlast : AtLastTag buf buf.length (buf.length - 8) := ⟨by omega, by omega, htag⟩
    have hfuel : buf.length ≤ hdr + 8 * buf.length := by omega
    obtain ⟨why, h⟩ : ∃ why, dataEntries sb buf dirIno buf.length buf.length hdr =
        .error (.panic why) := (dataEntries_panics_iff hfuel).mpr ⟨_, hq, hlast⟩
    exact ⟨why, (parseDataBlock_panics why).mpr ⟨hdr, false, buf.length, hform, hcheck, rfl, h⟩⟩

/-- A directory block of any contents is read within its bounds, except one without an index
whose entries lead to a name in its last eight bytes: that name's length is read past the end. -/
theorem reads_in_bounds_iff {sector : Bytes} (hsb : Superblock.parse sector = .ok sb)
    (hdbs : sb.dirBlockSize = .ok buf.length) :
    ReadsInBounds sb buf dirIno ↔ ¬LeadsToLastTag sb buf dirIno := by
  obtain ⟨-, h512, -⟩ := Superblock.dirBlockSize_of_parse hsb hdbs
  unfold ReadsInBounds
  rw [checkedDataBlock_eq h512, ← parseDataBlock_panics_iff h512, not_exists]
  refine and_iff_left fun names h => ?_
  obtain ⟨hdr, blockForm, stop, hform, -, hend, h⟩ := parseDataBlock_eq_ok.mp h
  have hstop := namesEnd_ok h512 hend
  have hle : stop ≤ buf.length := by split at hstop <;> omega
  exact ⟨hdr, blockForm, stop, hform, hend, names_inside hle (le_refl hdr) h⟩

end

/-! ## Blocks of a directory -/

/-- A v4 block without an index: one free region of `len` bytes, and a tag after it. -/
def looseBlock (len tag : Nat) : Bytes :=
  let b : Bytes := List.replicate 512 0
  let b := put32 b 0 XD2D
  let b := put16 b 16 0xffff
  let b := put16 b 18 len
  put16 b 504 tag

set_option maxRecDepth 100000 in
theorem reads_in_bounds_free :
    (Superblock.parse (Superblock.plainSector 9 32 2) =
        .ok (Superblock.fields (Superblock.plainSector 9 32 2)) ∧
      (Superblock.fields (Superblock.plainSector 9 32 2)).dirBlockSize =
        .ok (looseBlock 496 0).length) ∧
    ReadsInBounds (Superblock.fields (Superblock.plainSector 9 32 2)) (looseBlock 496 0) 128 := by
  have hp : Superblock.parse (Superblock.plainSector 9 32 2) =
      .ok (Superblock.fields (Superblock.plainSector 9 32 2)) := by decide +kernel
  have hdbs : (Superblock.fields (Superblock.plainSector 9 32 2)).dirBlockSize =
      .ok (looseBlock 496 0).length := by decide +kernel
  refine ⟨⟨hp, hdbs⟩, (reads_in_bounds_iff hp hdbs).mpr ?_⟩
  have hlen : (looseBlock 496 0).length = 512 := by decide +kernel
  have hfree : be16 (looseBlock 496 0) 16 = 0xffff ∧ be16 (looseBlock 496 0) (16 + 2) = 496 := by
    decide +kernel
  have h16 : dataForm (Superblock.fields (Superblock.plainSector 9 32 2)) (looseBlock 496 0) 128 =
      .ok (16, false) := by decide +kernel
  rintro ⟨hdr, hform, -, hq, -⟩
  rw [h16] at hform
  cases hform
  rw [hlen] at hq
  cases hq with
  | free _ _ _ _ hq =>
    rw [hfree.2] at hq
    have := hq.eq_of_le (by norm_num)
    omega
  | name _ hne _ _ _ _ => exact hne hfree.1

set_option maxRecDepth 100000 in
/-- A free region that leaves the last eight bytes to a name stops the program. -/
theorem reads_past_end :
    Superblock.parse (Superblock.plainSector 9 32 2) =
        .ok (Superblock.fields (Superblock.plainSector 9 32 2)) ∧
      (Superblock.fields (Superblock.plainSector 9 32 2)).dirBlockSize =
        .ok (looseBlock 488 0).length ∧
      ¬ReadsInBounds (Superblock.fields (Superblock.plainSector 9 32 2)) (looseBlock 488 0) 128 := by
  refine ⟨by decide +kernel, by decide +kernel, fun h => h.1 "index out of bounds" ?_⟩
  decide +kernel

end FioXfs.Dir
