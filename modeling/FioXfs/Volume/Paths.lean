import FioXfs.Lib.Names
import FioXfs.Volume
set_option autoImplicit false

/-!
# Resolving paths

`resolve` keeps the components left to follow in one list and puts a symbolic link's target in
front of it.  Whatever the image answers, that ends, and gives what following each link to its end
before going on would give.
-/

namespace FioXfs

open FioXfs.Lib FioXfs.Dir

/-- What an image answers: the inodes, the names in a directory and the targets of links. -/
structure Answers where
  inode : Nat → Result Inode
  dirEntries : Inode → Result (List RawEntry)
  symlinkTarget : Inode → Result Bytes
  rootIno : Nat

namespace Answers

/-- A component looked up in directory `cur`. -/
def lookup (A : Answers) (path : Bytes) (cur : Nat) (comp : Bytes) : Result Nat := do
  let dir ← A.inode cur
  failIf (!dir.isDir) (.notADirectory (shown path))
  let names ← A.dirEntries dir
  match Volume.findEntry names comp with
  | none => throw (.notFound (shown path))
  | some e => return e.ino

/-- The inode of a symbolic link. -/
def linkAt (A : Answers) (ino : Nat) : Result (Option Inode) := do
  let i ← A.inode ino
  return if i.fileType = Mode.IFLNK then some i else none

/-- Where a link's target starts, this filesystem's root when it is absolute, and its
components. -/
def targetOf (A : Answers) (i : Inode) : Result (Option Nat × List Bytes) := do
  let target ← A.symlinkTarget i
  return (if target.head? = some SLASH then some A.rootIno else none, splitPath target)

/-- Components and links as the image has them, for a path named `path` in errors. -/
def names (A : Answers) (path : Bytes) : Names Nat Inode Bytes Error where
  step := A.lookup path
  link := A.linkAt
  target := A.targetOf
  tooMany := .symlinkLoop (shown path)
  most := Volume.MAX_SYMLINKS

/-- Where `resolve` starts: at the root, with the path's components left. -/
def start (A : Answers) (path : Bytes) : Names.Work Nat Bytes := ⟨A.rootIno, splitPath path, 0⟩

end Answers

namespace Volume

open Names

/-- What a volume answers. -/
def answers (v : Volume) : Answers := ⟨v.inode, v.dirEntries, v.symlinkTarget, v.sb.rootIno⟩

section
variable {v : Volume} {path comp : Bytes} {follow : Bool} {cur used : Nat} {comps : List Bytes}

/-- One component of the walk, as a lookup and what it leads to. -/
theorem walkComps_cons : v.walkComps path follow cur (comp :: comps) = (do
    let child ← v.answers.lookup path cur comp
    if comps.isEmpty && !follow then return .done child
    match ← v.answers.linkAt child with
    | none => v.walkComps path follow child comps
    | some i => return .link cur i comps) := by
  unfold Answers.lookup Answers.linkAt
  conv_lhs => unfold walkComps dirLookup
  change (do let dir ← v.inode cur; _) = (do let child ← (do let dir ← v.inode cur; _); _)
  cases v.inode cur with
  | error e => rfl
  | ok dir =>
    simp only [except_ok_bind]
    by_cases hdir : (!dir.isDir) = true
    · simp only [except_throwIf_bind_of hdir]
      rfl
    · simp only [except_throwIf_bind_of_not hdir]
      change (do let o ← (do let names ← v.dirEntries dir; _); _) =
        (do let child ← (do let names ← v.dirEntries dir; _); _)
      cases v.dirEntries dir with
      | error e => rfl
      | ok names =>
        simp only [except_ok_bind]
        cases findEntry names comp with
        | none => rfl
        | some e =>
          simp only [Option.map_some]
          change (if comps = [] ∧ follow = false then (.ok (.done e.ino) : Result Walked) else _) =
            (if (comps.isEmpty && !follow) = true then .ok (.done e.ino) else _)
          refine if_congr (by simp [List.isEmpty_iff]) rfl ?_
          change (do let i ← v.inode e.ino; _) = (do let o ← (do let i ← v.inode e.ino; _); _)
          cases v.inode e.ino with
          | error e => rfl
          | ok i =>
            simp only [except_ok_bind]
            by_cases hlink : i.fileType = Mode.IFLNK
            · simp only [if_pos hlink]
              rfl
            · simp only [if_neg hlink]
              rfl

/-- What a walk up to the next link says of the work list: where it ends, or that it comes to that
link. -/
def WalksTo (v : Volume) (path : Bytes) (follow : Bool) (used : Nat) (w : Work Nat Bytes) :
    Result Walked → Prop
  | .error e => Ends (v.answers.names path) follow w (.error e)
  | .ok (.done ino) => Ends (v.answers.names path) follow w (.ok ino)
  | .ok (.link dir i rest) =>
      (∀ e, (v.answers.names path).enter dir rest used i = .error e →
        Ends (v.answers.names path) follow w (.error e)) ∧
      ∀ w' out, (v.answers.names path).enter dir rest used i = .ok (.inr w') →
        Ends (v.answers.names path) follow w' out → Ends (v.answers.names path) follow w out

theorem WalksTo.next {w w' : Work Nat Bytes} {r : Result Walked}
    (hn : turn (v.answers.names path) follow w = .ok (.inr w'))
    (h : WalksTo v path follow used w' r) : WalksTo v path follow used w r := by
  rcases r with e | ⟨ino⟩ | ⟨dir, i, rest⟩
  · exact Ends.next hn h
  · exact Ends.next hn h
  · exact ⟨fun e he => .next hn (h.1 e he), fun w'' out he hout => .next hn (h.2 w'' out he hout)⟩

theorem walkComps_walksTo :
    WalksTo v path follow used ⟨cur, comps, used⟩ (v.walkComps path follow cur comps) := by
  induction comps generalizing cur with
  | nil => exact .done rfl
  | cons comp comps ih =>
    rw [walkComps_cons]
    cases hs : v.answers.lookup path cur comp with
    | error e => exact .fail (turn_lost hs)
    | ok child =>
      rw [except_ok_bind]
      by_cases hlast : (comps.isEmpty && !follow) = true
      · rw [if_pos hlast]
        obtain ⟨hnil, hf⟩ := Bool.and_eq_true_iff.mp hlast
        obtain rfl := List.isEmpty_iff.mp hnil
        obtain rfl : follow = false := by simpa using hf
        exact .done (turn_last hs)
      · rw [if_neg hlast]
        have hmore : comps = [] → follow = true := by
          rintro rfl
          simpa using hlast
        cases hl : v.answers.linkAt child with
        | error e => exact .fail (turn_unread hs hmore hl)
        | ok o =>
          cases o with
          | none =>
            rw [except_ok_bind]
            exact ih.next (turn_plain hs hmore hl)
          | some i =>
            have hlink := @turn_link _ _ _ _ (v.answers.names path) follow _ _ _ _ used i hs hmore hl
            rw [except_ok_bind]
            exact ⟨fun e he => .fail (hlink.trans he), fun w out he hout => .next (hlink.trans he) hout⟩

theorem targetOf_ok {i : Inode} {target : Bytes} (h : v.symlinkTarget i = .ok target) :
    v.answers.targetOf i =
      .ok (if target.head? = some SLASH then some v.sb.rootIno else none, splitPath target) := by
  unfold Answers.targetOf
  change (do let target ← v.symlinkTarget i; _) = _
  rw [h]
  rfl

theorem targetOf_error {i : Inode} {e : Error} (h : v.symlinkTarget i = .error e) :
    v.answers.targetOf i = .error e := by
  unfold Answers.targetOf
  change (do let target ← v.symlinkTarget i; _) = _
  rw [h]
  rfl

/-- With `left` links still allowed, the loop over links ends as the work list does. -/
theorem resolveLoop_ends {left : Nat} (h : used + left = MAX_SYMLINKS) :
    Ends (v.answers.names path) follow ⟨cur, comps, used⟩
      (v.resolveLoop path follow left cur comps) := by
  induction left generalizing cur comps used with
  | zero =>
    have hwalk := @walkComps_walksTo v path follow cur used comps
    unfold resolveLoop
    generalize v.walkComps path follow cur comps = r at hwalk ⊢
    rcases r with e | ⟨ino⟩ | ⟨dir, i, rest⟩
    · exact hwalk
    · exact hwalk
    · exact hwalk.1 _ (enter_tooMany (by change MAX_SYMLINKS ≤ used; omega))
  | succ left ih =>
    have hwalk := @walkComps_walksTo v path follow cur used comps
    unfold resolveLoop
    generalize v.walkComps path follow cur comps = r at hwalk ⊢
    rcases r with e | ⟨ino⟩ | ⟨dir, i, rest⟩
    · exact hwalk
    · exact hwalk
    · have hused : used < (v.answers.names path).most := by change used < MAX_SYMLINKS; omega
      rw [except_ok_bind]
      simp only
      cases ht : v.symlinkTarget i with
      | error e => exact hwalk.1 _ (enter_broken hused (targetOf_error ht))
      | ok target =>
        have hbase : (if target.head? = some SLASH then some v.sb.rootIno else none).getD dir =
            if target.head? = some SLASH then v.sb.rootIno else dir := by
          split <;> rfl
        have hrest := @ih (if target.head? = some SLASH then v.sb.rootIno else dir) (used + 1)
          (splitPath target ++ rest) (by omega)
        refine hwalk.2 _ _ (enter_through hused (targetOf_ok ht)) ?_
        rw [hbase]
        exact hrest

/-- The result of `resolve` is what its loop, turn after turn, comes to. -/
theorem resolve_ends (v : Volume) (path : Bytes) (follow : Bool) :
    Ends (v.answers.names path) follow (v.answers.start path) (v.resolve path follow) :=
  resolveLoop_ends rfl

end

end Volume

open Names in
/-- Whatever an image answers, resolving a path ends in one way, at most forty links are followed
on the way, and it gives what following each link to its end first gives; `resolve` gives that. -/
theorem path_resolution (A : Answers) (path : Bytes) (follow : Bool) :
    ∃ out, (∀ out', Ends (A.names path) follow (A.start path) out' ↔ out' = out) ∧
      (∃ r, Leads (A.names path) follow 0 A.rootIno (splitPath path) r) ∧
      (∀ r, Leads (A.names path) follow 0 A.rootIno (splitPath path) r → r.map Prod.fst = out) ∧
      (∀ w, Relation.ReflTransGen (Next (A.names path) follow) (A.start path) w → w.used ≤ 40) ∧
      ∀ v : Volume, v.answers = A → v.resolve path follow = out := by
  obtain ⟨out, hout⟩ := exists_ends (A.names path) follow (A.start path)
  obtain ⟨r, hr, -⟩ := exists_leads (A.names path) 0 (splitPath path) follow A.rootIno
  refine ⟨out, fun out' => ⟨fun h => h.unique hout, ?_⟩, ⟨r, hr⟩,
    fun r' hr' => (ends_of_leads hr').unique hout, fun w hw => ?_, ?_⟩
  · rintro rfl
    exact hout
  · exact used_le_of_run hw (Nat.zero_le _)
  · rintro v rfl
    exact (Volume.resolve_ends v path follow).unique hout

end FioXfs
