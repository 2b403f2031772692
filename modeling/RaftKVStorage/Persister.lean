import RaftKVStorage.Proto

set_option autoImplicit false

/-! # Persister

The two files of class `persister`: the state file holds what `raft::_M_dump` last produced, kept
here as the `persistNode` it encodes, the snapshot file the bytes last handed over. -/

namespace RaftKVStorage

/-- `raft::persistNode`. -/
structure PersistNode where
  logs : List LogEntry
  term : Int
  vote4 : Int
  lastSnapshotIndex : Int
  lastSnapshotTerm : Int
deriving DecidableEq, Repr

structure Persister where
  state : Option PersistNode
  snapshot : Bytes
deriving DecidableEq, Repr

/-- The constructor opens both files for writing, which empties them. -/
def Persister.new : Persister := ⟨none, []⟩

/-- `persist(state)`. -/
def Persister.persist (f : Persister) (state : PersistNode) : Persister :=
  { f with state := some state }

/-- `persist(state, snapshot)`. -/
def Persister.persistBoth (_ : Persister) (state : PersistNode) (snapshot : Bytes) : Persister :=
  ⟨some state, snapshot⟩

/-- `std::isspace` in the "C" locale. -/
def isSpace (c : UInt8) : Bool := c = 32 || (9 ≤ c && c ≤ 13)

/-- `ifs >> token`: skip white space, read up to the next one. -/
def readToken (file : Bytes) : Bytes := (file.dropWhile isSpace).takeWhile fun c => !isSpace c

/-- `loadSnapshot`, the string it reads. -/
def Persister.loadSnapshot (f : Persister) : Bytes := readToken f.snapshot

end RaftKVStorage
