import Ecryptfs.CString
import Ecryptfs.Lib.Memory
import Ecryptfs.Lib.Words

/-!
# The table of zombie sessions

Placeholder processes register in a shared memory segment: the segment holds pairs of a session and a
process, each eight bytes in network order, up to a pair of zeros or to its end.  The functions that
add, find, remove and list pairs scan the segment by hand; `scan` is their common loop.  Every
function also returns the accesses it made to the segment.

The segment is the start of a memory, since a write may go beyond its end.
-/

namespace Ecryptfs

open Memory

/-- `ECRYPTFS_SHM_SIZE`. -/
def shmSize : ℕ := 4096

/-- `sizeof(pid_t)`. -/
def pidSize : ℕ := 4

/-- The size of a pair. -/
def pairSize : ℕ := 2 * pidSize

/-- The bits of a `pid_t`. -/
abbrev Pid := UInt32

/-- An access to some bytes of the segment. -/
structure Access where
  offset : ℕ
  length : ℕ
  deriving DecidableEq

/-- The process that calls: its own id and that of its session. -/
structure Caller where
  sid : Pid
  pid : Pid
  deriving DecidableEq

/-- The outcomes of `shmat`, `malloc` and `shmdt`. -/
structure ShmCalls where
  attached : Bool := true
  allocated : Bool := true
  detached : Bool := true
  deriving DecidableEq

/-- What a function leaves behind: its code, the memory, and the accesses it made. -/
structure ShmResult where
  rc : ℤ
  mem : Bytes
  accesses : List Access

/-- `memcpy` followed by `ntohl`. -/
def readPid (m : Bytes) (i : ℕ) : Pid := Words.load .big (slice m i pidSize)

/-- How the scan for a session ends: behind the terminator, behind a pair of the session, or behind
the last pair that fits. -/
inductive Scan where
  | free (i : ℕ)
  | found (pid : Pid) (i : ℕ)
  | full (i : ℕ)
  deriving DecidableEq

/-- The loop over the pairs from offset `i` on; `wanted` is the session that is looked for, if any. -/
def scan (wanted : Option Pid) (m : Bytes) (i : ℕ) : Scan × List Access :=
  let sid := readPid m i
  let pid := readPid m (i + pidSize)
  let reads : List Access := [⟨i, pidSize⟩, ⟨i + pidSize, pidSize⟩]
  if sid = 0 ∧ pid = 0 then (.free (i + pairSize), reads)
  else if wanted = some sid then (.found pid (i + pairSize), reads)
  else if _h : shmSize < i + pairSize + pairSize then (.full (i + pairSize), reads)
  else
    let rest := scan wanted m (i + pairSize)
    (rest.1, reads ++ rest.2)
termination_by shmSize - i
decreasing_by
  simp only [pairSize, pidSize, shmSize] at _h ⊢
  omega

/-- The code after `shmdt`. -/
def detachCode (calls : ShmCalls) : ℤ := if calls.detached then 0 else -eio

/-- `list_pid_sid_pairs`. -/
def listPidSidPairs (calls : ShmCalls) (m : Bytes) : ShmResult :=
  if calls.attached = false then ⟨-eio, m, []⟩
  else ⟨detachCode calls, m, (scan none m 0).2⟩

/-- `find_pid_for_this_sid`, with the process id it fills in. -/
def findPidForThisSid (calls : ShmCalls) (caller : Caller) (m : Bytes) : Pid × ShmResult :=
  if calls.attached = false then (0, ⟨-eio, m, []⟩)
  else
    match scan (some caller.sid) m 0 with
    | (.found pid _, reads) =>
      (if calls.detached then pid else 0, ⟨detachCode calls, m, reads⟩)
    | (_, reads) => (0, ⟨detachCode calls, m, reads⟩)

/-- `remove_pid_for_this_sid`: what follows the pair is moved down over it. -/
def removePidForThisSid (calls : ShmCalls) (caller : Caller) (m : Bytes) : ShmResult :=
  if calls.attached = false then ⟨-eio, m, []⟩
  else
    match scan (some caller.sid) m 0 with
    | (.found pid i, reads) =>
      if pid ≠ 0 then
        let remainder := shmSize - i
        if remainder ≠ 0 then
          if calls.allocated = false then ⟨-enomem, m, reads⟩
          else
            let tmp := slice m i remainder
            let m := write m (i - pairSize) tmp
            let j := i - pairSize + remainder
            ⟨detachCode calls, write m j (.replicate pairSize 0),
              reads ++ [⟨i, remainder⟩, ⟨i - pairSize, remainder⟩, ⟨j, pairSize⟩]⟩
        else
          ⟨detachCode calls, write m (i - pairSize) (.replicate pairSize 0),
            reads ++ [⟨i - pairSize, pairSize⟩]⟩
      else ⟨detachCode calls, m, reads⟩
    | (_, reads) => ⟨detachCode calls, m, reads⟩

/-- `add_sid_pid_pair_to_shm`: the pair goes where the terminator was.  The terminator behind it is
written with a length that counts from the start of the segment. -/
def addSidPidPairToShm (calls : ShmCalls) (caller : Caller) (m : Bytes) : ShmResult :=
  if calls.attached = false then ⟨-eio, m, []⟩
  else
    match scan none m 0 with
    | (.full _, reads) => ⟨-enomem, m, reads⟩
    | (.free i, reads) | (.found _ i, reads) =>
      let i := i - pairSize
      let m := write m i (Words.store .big caller.sid)
      let m := write m (i + pidSize) (Words.store .big caller.pid)
      let writes : List Access := [⟨i, pidSize⟩, ⟨i + pidSize, pidSize⟩]
      let i := i + pairSize
      if i + pairSize ≤ shmSize then
        ⟨detachCode calls, write m i (.replicate (i + pairSize) 0),
          reads ++ writes ++ [⟨i, i + pairSize⟩]⟩
      else ⟨detachCode calls, m, reads ++ writes⟩

end Ecryptfs
