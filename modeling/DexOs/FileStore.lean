import DexOs.FileSessions
import DexOs.ExfatEntrySet

/-! What a volume is for: files under their names. The store also counts what the driver runs out of, and it repeats
the defects of the driver. -/

namespace DexOs.Exfat

open DexOs.Lib

inductive Request
  | create (path : CString)
  | put (path : CString) (off : ℕ) (buf : List UInt8)
  | get (path : CString) (off len : ℕ)
  | stat (path : CString)
  | remove (path : CString)

/-- A file with the slots of its directory entries and the clusters of its chain. -/
structure StoredFile where
  name : List UInt8
  slots : ℕ
  bytes : List UInt8
  clusters : ℕ

/-- The files in the order of the directory. As in the driver, and unlike in a proper store, a removal drops the files
behind the removed one, a name may be taken twice, only the first 32 files can be opened, and a write that fails keeps
the clusters that it has taken. -/
structure FileStore where
  clusterSize : ℕ
  files : List StoredFile
  free : ℕ

namespace FileStore

variable (s : FileStore)

def slots : ℕ := (s.files.map StoredFile.slots).sum

/-- A defect of `exfat_open` and `exfat_stat`: files behind the first 32 are not found, but can be made and removed. -/
def find (name : List UInt8) : Option ℕ := (s.files.take 32).findIdx? (·.name = name)

/-- A defect of `exfat_create`: a name that is taken is no obstacle, and the new file of this name is never opened. -/
def create (name : List UInt8) : Reply × FileStore :=
  if name = [] ∨ s.clusterSize < 32 * (s.slots + (2 + nameEntries name)) ∨ s.free = 0 then (.code (-1), s)
  else (.code 0,
    { s with files := s.files ++ [⟨storedName name, 2 + nameEntries name, [], 1⟩], free := s.free - 1 })

def needs (f : StoredFile) (n : ℕ) : ℕ := (n + s.clusterSize - 1) / s.clusterSize - f.clusters

/-- A defect of `exfat_write`: when the free clusters do not suffice, the file keeps all of them, and its bytes stay as
they are. -/
def put (i : ℕ) (f : StoredFile) (off : ℕ) (buf : List UInt8) : Reply × FileStore :=
  if buf = [] then (.code 0, s)
  else
    let n := s.needs f (off + buf.length)
    if n ≤ s.free then
      (.code buf.length,
        { s with files := s.files.set i { f with bytes := writeAt f.bytes off buf, clusters := f.clusters + n },
                 free := s.free - n })
    else (.code (-1), { s with files := s.files.set i { f with clusters := f.clusters + s.free }, free := 0 })

def get (f : StoredFile) (off len : ℕ) : List UInt8 := (f.bytes.drop off).take len

/-- A defect of `exfat_unlink`: the files behind the removed one vanish as well, and their clusters are not freed. -/
def remove (name : List UInt8) : Reply × FileStore :=
  match s.files.findIdx? (·.name = name) with
  | none => (.code (-1), s)
  | some i => (.code 0, { s with files := s.files.take i, free := s.free + ((s.files[i]?).map StoredFile.clusters).getD 0 })

def onFile (path : CString) (op : ℕ → StoredFile → Reply × FileStore) : Reply × FileStore :=
  match s.find (fileName path) with
  | none => (.file none, s)
  | some i =>
    match s.files[i]? with
    | none => (.file none, s)
    | some f => op i f

def serve : Request → Reply × FileStore
  | .create path => s.create (fileName path)
  | .put path off buf => if pathIsRoot path then (.code (-1), s) else s.onFile path fun i f => s.put i f off buf
  | .get path off len =>
    if pathIsRoot path then (.bytes (-1) [], s)
    else s.onFile path fun _ f => (.bytes (get f off len).length (get f off len), s)
  | .stat path =>
    if pathIsRoot path then (.info (some (0, true)), s)
    else (.info ((s.find (fileName path)).bind fun i => (s.files[i]?).map fun f => (f.bytes.length, false)), s)
  | .remove path => if fileName path = [] then (.code (-1), s) else s.remove (fileName path)

def serveAll : List Request → FileStore → List Reply × FileStore
  | [], s => ([], s)
  | r :: rs, s =>
    let first := s.serve r
    let rest := serveAll rs first.2
    (first.1 :: rest.1, rest.2)

end FileStore

end DexOs.Exfat
