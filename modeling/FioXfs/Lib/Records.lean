import FioXfs.Lib.Numeral
set_option autoImplicit false

/-!
# Lib: records that count themselves

A record starts with its own length, digits of that length included.  The length is a fixed
point, and the records one after another read back whatever bytes they hold.
-/

namespace FioXfs.Lib

section
variable {base : Nat} {sep : UInt8}

/-- A length that counts `body` bytes and its own digits. -/
def CountsItself (base body len : Nat) : Prop := len = body + (numeral base len).length

/-- Going from a length to the length with its digits never passes `2 * body + 2`. -/
theorem grown_le (hb : 2 ≤ base) {body len : Nat} (h : len ≤ 2 * body + 2) :
    body + (numeral base len).length ≤ 2 * body + 2 := by
  have hpow : ∀ k : Nat, 2 * k + 2 < 2 ^ (k + 2) := by
    intro k
    induction k with
    | zero => decide
    | succ k ih => rw [pow_succ]; omega
  have hbase : 2 ^ (body + 2) ≤ base ^ (body + 2) := Nat.pow_le_pow_left hb _
  have hdigits : (numeral base len).length ≤ body + 2 :=
    (length_numeral_le_iff hb (by omega)).mpr ((h.trans_lt (hpow body)).trans_le hbase)
  omega

/-- The first separator cuts bytes in two. -/
def cutAt (sep : UInt8) : Bytes → Option (Bytes × Bytes)
  | [] => none
  | b :: bs => if b = sep then some ([], bs) else (cutAt sep bs).map fun c => (b :: c.1, c.2)

theorem cutAt_append (front back : Bytes) (h : sep ∉ front) :
    cutAt sep (front ++ sep :: back) = some (front, back) := by
  induction front with
  | nil => simp [cutAt]
  | cons b front ih =>
    obtain ⟨hne, hfront⟩ := List.ne_and_not_mem_of_not_mem_cons h
    rw [List.cons_append, cutAt, if_neg (Ne.symm hne), ih hfront]
    rfl

/-- What the cut keeps in front has no separator. -/
theorem notMem_of_cutAt {bs front back : Bytes} (h : cutAt sep bs = some (front, back)) :
    sep ∉ front := by
  induction bs generalizing front with
  | nil => cases h
  | cons b bs ih =>
    rw [cutAt] at h
    split at h
    · cases h
      exact List.not_mem_nil
    · rename_i hne
      obtain ⟨⟨front', back'⟩, hcut, heq⟩ := Option.map_eq_some_iff.mp h
      cases heq
      exact List.not_mem_cons_of_ne_of_not_mem (Ne.symm hne) (ih hcut)

/-- The first separator is the one put there exactly when there is none before it. -/
theorem cutAt_append_iff (front back : Bytes) :
    cutAt sep (front ++ sep :: back) = some (front, back) ↔ sep ∉ front :=
  ⟨notMem_of_cutAt, cutAt_append front back⟩

/-! ## A record -/

/-- A record of `payload`: its length, `sep`, the payload. -/
def counted (base : Nat) (sep : UInt8) (len : Nat) (payload : Bytes) : Bytes :=
  numeral base len ++ sep :: payload

/-- The first record's payload, and the bytes after it. -/
def readCounted (base : Nat) (sep : UInt8) (bs : Bytes) : Option (Bytes × Bytes) := do
  let (digits, _) ← cutAt sep bs
  let len ← valueOf base digits
  if len ≤ digits.length ∨ bs.length < len then none
  return (slice bs (digits.length + 1) (len - (digits.length + 1)), bs.drop len)

/-- The payloads of records one after another, the bytes at most `fuel`. -/
def readAllFrom (base : Nat) (sep : UInt8) : Nat → Bytes → Option (List Bytes)
  | _, [] => some []
  | 0, _ :: _ => none
  | fuel + 1, b :: bs => do
      let (payload, rest) ← readCounted base sep (b :: bs)
      let payloads ← readAllFrom base sep fuel rest
      return payload :: payloads

/-- The payloads of records one after another. -/
def readAll (base : Nat) (sep : UInt8) (bs : Bytes) : Option (List Bytes) :=
  readAllFrom base sep bs.length bs

theorem length_counted {len : Nat} {payload : Bytes} (h : CountsItself base (payload.length + 1) len) :
    (counted base sep len payload).length = len := by
  rw [counted, List.length_append, List.length_cons]
  unfold CountsItself at h
  omega

/-- A record reads back, whatever its payload and whatever follows. -/
theorem readCounted_append (hb : 2 ≤ base) (hb' : base ≤ 10) (hsep : sep.toNat < 48) {len : Nat}
    {payload : Bytes} (h : CountsItself base (payload.length + 1) len) (rest : Bytes) :
    readCounted base sep (counted base sep len payload ++ rest) = some (payload, rest) := by
  have hlen : (counted base sep len payload).length = len := length_counted h
  have hno : sep ∉ numeral base len := fun hmem => by
    obtain ⟨d, hd, rfl⟩ := mem_numeral hb hmem
    rw [toNat_digit (by omega)] at hsep
    omega
  have hcut : cutAt sep (counted base sep len payload ++ rest) =
      some (numeral base len, payload ++ rest) := by
    rw [counted, List.append_assoc, List.cons_append]
    exact cutAt_append _ _ hno
  have hbounds : ¬(len ≤ (numeral base len).length ∨
      (counted base sep len payload ++ rest).length < len) := by
    rw [List.length_append, hlen]
    unfold CountsItself at h
    omega
  have hpayload : slice (counted base sep len payload ++ rest) ((numeral base len).length + 1)
      (len - ((numeral base len).length + 1)) = payload := by
    have hn : len - ((numeral base len).length + 1) = payload.length := by
      unfold CountsItself at h
      omega
    have hsplit : counted base sep len payload ++ rest =
        (numeral base len ++ [sep]) ++ (payload ++ rest) := by
      simp [counted]
    have hat : (numeral base len).length + 1 = (numeral base len ++ [sep]).length + 0 := by simp
    rw [hn, hsplit, hat, slice_append_right]
    simp [slice]
  have hdrop : (counted base sep len payload ++ rest).drop len = rest := by
    rw [List.drop_append_of_le_length hlen.ge, List.drop_eq_nil_of_le hlen.le, List.nil_append]
  simp only [readCounted, hcut, Option.bind_eq_bind, Option.bind_some, valueOf_numeral hb hb',
    if_neg hbounds, hpayload, hdrop]
  rfl

/-- Records one after another read back. -/
theorem readAll_flatMap (hb : 2 ≤ base) (hb' : base ≤ 10) (hsep : sep.toNat < 48)
    {records : List (Nat × Bytes)}
    (h : ∀ r ∈ records, CountsItself base (r.2.length + 1) r.1) :
    readAll base sep (records.flatMap fun r => counted base sep r.1 r.2) =
      some (records.map Prod.snd) := by
  have hfrom : ∀ fuel, (records.flatMap fun r => counted base sep r.1 r.2).length ≤ fuel →
      readAllFrom base sep fuel (records.flatMap fun r => counted base sep r.1 r.2) =
        some (records.map Prod.snd) := by
    induction records with
    | nil => intro fuel _; cases fuel <;> rfl
    | cons r records ih =>
      intro fuel hfuel
      have hr := h r List.mem_cons_self
      have hlen : (counted base sep r.1 r.2).length = r.1 := length_counted hr
      have hpos : r.1 ≠ 0 := by
        unfold CountsItself at hr
        omega
      rw [List.flatMap_cons] at hfuel ⊢
      rw [List.length_append, hlen] at hfuel
      have hread := readCounted_append hb hb' hsep hr
        (records.flatMap fun r => counted base sep r.1 r.2)
      generalize hbs : counted base sep r.1 r.2 ++
        records.flatMap (fun r => counted base sep r.1 r.2) = bs at hread ⊢
      obtain ⟨fuel, rfl⟩ : ∃ n, fuel = n + 1 := ⟨fuel - 1, by omega⟩
      cases bs with
      | nil =>
        have := congrArg List.length hbs
        rw [List.length_append, hlen, List.length_nil] at this
        omega
      | cons b bs =>
        simp only [readAllFrom, hread, Option.bind_eq_bind, Option.bind_some,
          ih (fun q hq => h q (List.mem_cons_of_mem _ hq)) fuel (by omega)]
        rfl
  exact hfrom _ (le_refl _)

end

end FioXfs.Lib
