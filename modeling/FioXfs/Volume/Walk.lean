import FioXfs.Volume
set_option autoImplicit false

/-!
# Walking a tree (`volume.rs`)

Every name under a directory, depth first in sorted order.  The walk keeps a stack of the names
still to come of each directory it is inside.
-/

namespace FioXfs

open FioXfs.Lib FioXfs.Dir

/-- One name in a directory, its type filled in. -/
structure DirEntry where
  rawName : Bytes
  inode : Nat
  kind : FileType
  deriving DecidableEq

/-- What `stat` tells about a file, as far as getting a tree out needs it. -/
structure Stat where
  inode : Nat
  size : Nat
  mode : Nat
  links : Nat
  uid : Nat
  gid : Nat
  mtime : Timestamp
  rdev : Nat × Nat
  deriving DecidableEq

namespace Stat

/-- The file type bits of the mode. -/
def ftype (st : Stat) : Nat := st.mode &&& Mode.IFMT

/-- Whether this is a directory. -/
def isDir (st : Stat) : Bool := st.ftype == Mode.IFDIR

end Stat

/-- A name found walking a tree: its path below the root, and what it names. -/
structure WalkEntry where
  rawPath : Bytes
  stat : Stat
  deriving DecidableEq

/-- What walking gives: the names handed over so far, and how it ended, if it did. -/
@[ext]
structure TreeWalk where
  out : List WalkEntry
  ended : Option (Result Unit)

/-- One name more in front. -/
def TreeWalk.after (e : WalkEntry) (w : TreeWalk) : TreeWalk := ⟨e :: w.out, w.ended⟩

/-- A path with a name added. -/
def addName (path name : Bytes) : Bytes := (if path = [] then [] else path ++ [SLASH]) ++ name

namespace Volume

def statInode (i : Inode) : Stat where
  inode := i.ino
  size := i.size
  mode := i.mode
  links := i.nlink
  uid := i.uid
  gid := i.gid
  mtime := i.mtime
  rdev := i.device

/-- The type of an entry, from its inode where the directory does not record it. -/
def kindOfEntry (v : Volume) (e : RawEntry) : Result FileType :=
  match e.ftype with
  | .unknown => do
      let i ← v.inode e.ino
      return .fromMode i.mode
  | k => .ok k

/-- Entries with their types, without `.` and `..`. -/
def readEntries (v : Volume) : List RawEntry → Result (List DirEntry)
  | [] => return []
  | e :: es =>
      if e.name = DOT ∨ e.name = DOTDOT then readEntries v es
      else do
        let kind ← v.kindOfEntry e
        let rest ← readEntries v es
        return ⟨e.name, e.ino, kind⟩ :: rest

/-- Entries of a directory inode. -/
def readDirInode (v : Volume) (i : Inode) : Result (List DirEntry) := do
  let names ← v.dirEntries i
  v.readEntries names

/-- A directory's entries, last name first. -/
def sortedChildren (v : Volume) (dir : Inode) : Result (List DirEntry) := do
  let names ← v.readDirInode dir
  return names.mergeSort fun a b => decide (b.rawName ≤ a.rawName)

/-- A directory on the walk's stack: its path, and its names still to come, the next first. -/
abbrev Frame := Bytes × List DirEntry

/-- Walk on from a stack, at most `fuel` steps. -/
def walkFrom (v : Volume) : Nat → List Frame → List Nat → TreeWalk
  | 0, _, _ => ⟨[], none⟩
  | _ + 1, [], _ => ⟨[], some (.ok ())⟩
  | fuel + 1, (_, []) :: stack, visited => walkFrom v fuel stack visited
  | fuel + 1, (path, entry :: rest) :: stack, visited =>
      match v.inode entry.inode with
      | .error e => ⟨[], some (.error e)⟩
      | .ok i =>
          let item : WalkEntry := ⟨addName path entry.rawName, statInode i⟩
          if i.isDir then
            if i.ino ∈ visited then
              ⟨[item], some (.error (.corrupt s!"directory {i.ino} reached twice"))⟩
            else
              match v.sortedChildren i with
              | .error e => ⟨[item], some (.error e)⟩
              | .ok children =>
                  (walkFrom v fuel ((item.rawPath, children.reverse) :: (path, rest) :: stack)
                    (i.ino :: visited)).after item
          else (walkFrom v fuel ((path, rest) :: stack) visited).after item

/-- The directory a walk starts at. -/
def walkTop (v : Volume) (root : Bytes) : Result Inode := do
  let ino ← v.resolve root true
  let top ← v.inode ino
  failIf (!top.isDir) (.notADirectory (shown root))
  return top

/-- Walk every name under a directory, at most `fuel` steps. -/
def walkEach (v : Volume) (root : Bytes) (fuel : Nat) : TreeWalk :=
  match v.walkTop root with
  | .error e => ⟨[], some (.error e)⟩
  | .ok top =>
      match v.sortedChildren top with
      | .error e => ⟨[], some (.error e)⟩
      | .ok children => v.walkFrom fuel [([], children.reverse)] [top.ino]

/-- A walk comes to a name. -/
def Yields (v : Volume) (root : Bytes) (e : WalkEntry) : Prop :=
  ∃ fuel, e ∈ (v.walkEach root fuel).out

/-- A walk ends with these names. -/
def Walks (v : Volume) (root : Bytes) (es : List WalkEntry) : Prop :=
  ∃ fuel, v.walkEach root fuel = ⟨es, some (.ok ())⟩

/-! ## What a walk hands over -/

theorem ino_of_inode {v : Volume} {ino : Nat} {i : Inode} (h : v.inode ino = .ok i) : i.ino = ino := by
  obtain ⟨at_, -, h⟩ := except_bind_eq_ok.mp h
  obtain ⟨buf, -, h⟩ := except_bind_eq_ok.mp h
  unfold Inode.parse at h
  simp only [except_bind_eq_ok, pure, Except.pure, Except.ok.injEq] at h
  obtain ⟨-, -, -, -, -, -, -, -, -, -, -, -, rfl⟩ := h
  rfl

section
variable {v : Volume}

/-- Every name is handed over with its inode. -/
theorem stat_of_walkFrom {fuel : Nat} {stack : List Frame} {visited : List Nat} {e : WalkEntry}
    (h : e ∈ (v.walkFrom fuel stack visited).out) :
    ∃ i, v.inode e.stat.inode = .ok i ∧ e.stat = statInode i := by
  have hhead : ∀ {n : Nat} {i : Inode} {path : Bytes}, v.inode n = .ok i →
      ∃ j, v.inode (⟨path, statInode i⟩ : WalkEntry).stat.inode = .ok j ∧
        (⟨path, statInode i⟩ : WalkEntry).stat = statInode j := fun {n i path} hi =>
    ⟨i, (congrArg v.inode (ino_of_inode hi)).trans hi, rfl⟩
  induction fuel, stack, visited using walkFrom.induct v with
  | case1 => simp [walkFrom] at h
  | case2 => simp [walkFrom] at h
  | case3 fuel visited path stack ih =>
    rw [walkFrom] at h
    exact ih h
  | case4 fuel path entry rest stack visited err hi =>
    simp [walkFrom, hi] at h
  | case5 fuel path entry rest stack visited i hi hdir hseen =>
    simp only [walkFrom, hi, hdir, if_true, if_pos hseen, List.mem_singleton] at h
    exact h ▸ hhead hi
  | case6 fuel path entry rest stack visited i hi hdir hseen err hc =>
    simp only [walkFrom, hi, hdir, if_true, if_neg hseen, hc, List.mem_singleton] at h
    exact h ▸ hhead hi
  | case7 fuel path entry rest stack visited i hi item hdir hseen children hc ih =>
    simp only [walkFrom, hi, hdir, if_true, if_neg hseen, hc, TreeWalk.after, List.mem_cons] at h
    exact h.elim (fun h => h ▸ hhead hi) ih
  | case8 fuel path entry rest stack visited i hi hdir ih =>
    simp only [walkFrom, hi, if_neg hdir, TreeWalk.after, List.mem_cons] at h
    exact h.elim (fun h => h ▸ hhead hi) ih

theorem stat_of_yields {root : Bytes} {e : WalkEntry} (h : v.Yields root e) :
    ∃ i, v.inode e.stat.inode = .ok i ∧ e.stat = statInode i := by
  obtain ⟨fuel, h⟩ := h
  unfold walkEach at h
  split at h
  · cases h
  · split at h
    · cases h
    · exact stat_of_walkFrom h

theorem yields_of_walks {root : Bytes} {es : List WalkEntry} (h : v.Walks root es) :
    ∀ e ∈ es, v.Yields root e := by
  obtain ⟨fuel, h⟩ := h
  exact fun e he => ⟨fuel, by rw [h]; exact he⟩

/-- Two names of one inode are told the same about it. -/
theorem stat_of_walks {root : Bytes} {es : List WalkEntry} (h : v.Walks root es) :
    ∀ a ∈ es, ∀ b ∈ es, a.stat.inode = b.stat.inode → a.stat = b.stat := by
  intro a ha b hb hino
  obtain ⟨i, hi, hai⟩ := stat_of_yields (yields_of_walks h a ha)
  obtain ⟨j, hj, hbj⟩ := stat_of_yields (yields_of_walks h b hb)
  rw [hino, hj] at hi
  rw [hai, hbj, Except.ok.inj hi]

end

end Volume

/-! ## Small trees -/

/-- A superblock of sixteen blocks, with its root directory in the ninth. -/
def treeSb : Superblock := { freshSb 16 true with rootIno := 16 }

/-- Its sector. -/
def treeSector : Bytes := Crc.stamp (put64 (freshSector 16 true) 56 16) 224

/-- An inode with its data inline, or none. -/
def inlineInode (mode nlink : Nat) (format : Format) (fork : Bytes) (ino : Nat) : Bytes :=
  let b : Bytes := List.replicate 256 0
  let b := put16 b 0 Inode.MAGIC
  let b := put16 b 2 mode
  let b := putBe 1 b 4 3
  let b := putBe 1 b 5 format.code
  let b := put32 b 16 nlink
  let b := put64 b 56 fork.length
  let b := put64 b 152 ino
  Crc.stamp (splice b 176 fork) 100

/-- A short-form directory's fork. -/
def shortNames (parent : Nat) (names : List (Bytes × Nat)) : Bytes :=
  [names.length.toUInt8, 0] ++ put32 (List.replicate 4 0) 0 parent ++
    names.flatMap fun n =>
      [n.1.length.toUInt8, 0, 0] ++ n.1 ++ [0] ++ put32 (List.replicate 4 0) 0 n.2

/-- A device with inodes on it. -/
def treeDevice (inodes : List (Nat × (Nat → Bytes))) : Device :=
  ⟨inodes.foldl (fun d i => splice d (i.1 * 256) (i.2 i.1)) (treeSector ++ List.replicate 7680 0), []⟩

/-- The device opened. -/
def treeVolume (inodes : List (Nat × (Nat → Bytes))) : Volume :=
  { dev := treeDevice inodes, sb := treeSb, log := .external, w := none, time := none, clock := [] }

/-- A tree with the names `a` and `b` of one inode. -/
def twoNames (mode : Nat) : List (Nat × (Nat → Bytes)) :=
  [(16, inlineInode (Mode.IFDIR + 0o755) 2 .local_ (shortNames 16 [([98], 17), ([97], 17)])),
    (17, inlineInode mode 2 .extents [])]

/-- Names stored last first are walked as they are. -/
theorem Volume.walkEach_of_sorted {v : Volume} {root : Bytes} {fuel ino : Nat} {names : List DirEntry}
    (h : (v.walkTop root).toOption.map (fun top => (v.readDirInode top, top.ino)) =
      some (.ok names, ino))
    (hs : names.Pairwise fun a b => decide (b.rawName ≤ a.rawName) = true) :
    v.walkEach root fuel = v.walkFrom fuel [([], names.reverse)] [ino] := by
  unfold walkEach
  cases ht : v.walkTop root with
  | error e =>
    rw [ht] at h
    cases h
  | ok top =>
    rw [ht] at h
    obtain ⟨hread, hino⟩ := Prod.mk.inj (Option.some.inj h)
    have hsorted : v.sortedChildren top = .ok names := by
      rw [sortedChildren, hread, except_ok_bind, List.mergeSort_of_pairwise hs]
      rfl
    dsimp only
    rw [hsorted, ← hino]

end FioXfs
