import CoverageLedger.Store

/-!
# Databases in files

The bytes of a database file: a row with a title and the version of the schema, and then every
entry. An entry is a row with the lengths of its key and its value, followed by both.
-/

namespace CoverageLedger.Database

/-- The start of every database file. -/
def title : List Char := "coverage ledger ".toList

def lineFeed : UInt8 := 10

def bytesOf (cs : List Char) : List UInt8 := (String.ofList cs).toUTF8.toList

/-- The bytes of one entry. -/
def entryBytes (key : String) (value : ByteArray) : List UInt8 :=
  let keyBytes := key.toUTF8.toList
  bytesOf (Decimal.digitChars keyBytes.length ++ ' ' :: Decimal.digitChars value.size) ++
    lineFeed :: (keyBytes ++ value.toList)

def toBytes (d : Database) : List UInt8 :=
  bytesOf (title ++ Decimal.intChars [] (d.version.getD schemaVersion)) ++
    lineFeed :: d.blobs.entries.flatMap fun (key, value) => entryBytes key value

/-- The text of a row, and the bytes after it. -/
def takeRow (bytes : List UInt8) : List Char × List UInt8 :=
  ((bytes.takeWhile (· != lineFeed)).map fun b => Char.ofNat b.toNat,
    (bytes.dropWhile (· != lineFeed)).drop 1)

/-- An entry, and the bytes after it. -/
def takeEntry? (bytes : List UInt8) : Option ((String × ByteArray) × List UInt8) := do
  let (row, rest) := takeRow bytes
  let (keyLength, valueLength) ← Text.splitOnce ' ' row
  let keyLength ← Text.digits? keyLength
  let valueLength ← Text.digits? valueLength
  if rest.length < keyLength + valueLength then none
  let key ← String.fromUTF8? (ByteArray.mk (rest.take keyLength).toArray)
  let value := ByteArray.mk ((rest.drop keyLength).take valueLength).toArray
  return ((key, value), rest.drop (keyLength + valueLength))

/-- The entries of some bytes. Every entry takes at least one byte of fuel. -/
def entries? : Nat → List UInt8 → Option (List (String × ByteArray))
  | _, [] => some []
  | 0, _ => none
  | fuel + 1, bytes => do
    let (entry, rest) ← takeEntry? bytes
    return entry :: (← entries? fuel rest)

/-- The database of some bytes. -/
def ofBytes? (bytes : List UInt8) : Option Database := do
  let (row, rest) := takeRow bytes
  let version ← Text.int64? (← Text.afterStart title row)
  return { version := some version, blobs := .ofList (← entries? rest.length rest) }

end CoverageLedger.Database
