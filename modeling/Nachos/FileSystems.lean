import Nachos.FileAllocation
import Nachos.FileDirectory

/-! `filesys/filesys.cc`: the files of a disk by name. The bitmap of the sectors in use and the
directory are files themselves, whose headers are at sectors of their own. -/
namespace Nachos.FileSystem
open BitMaps ByteImages

def freeMapSector : ℕ := 0

def directorySector : ℕ := 1

def freeMapFileSize : Word := .ofNat 32 (numSectors / 8)

def numDirEntries : ℕ := 10

def directoryFileSize : Word := .ofNat 32 (Image.size DirectoryEntry * numDirEntries)

/-- What `new` finds in memory, for each type that is made by it. -/
structure Memory where
  bytes : ℕ → UInt8
  words : ℕ → Word
  entries : ℕ → DirectoryEntry

/-- The `FileSystem` and the disk below it -/
structure Mounted where
  disk : Disk
  freeMapFile : OpenFile
  directoryFile : OpenFile

/-- `freeMap->FetchFrom(freeMapFile)`, of a new bitmap -/
def fetchMap (memory : Memory) (s : Mounted) : Except Fault BitMap := do
  let freeMap ← BitMap.new memory.words numSectors
  let map ← fetchArray s.disk s.freeMapFile freeMap.map
  return { freeMap with map }

/-- `directory->FetchFrom(directoryFile)`, of a new directory -/
def fetchDirectory (memory : Memory) (s : Mounted) : Except Fault Directory :=
  fetchArray s.disk s.directoryFile (Directory.new memory.entries numDirEntries)

def assertTrue (condition : Bool) : Except Fault Unit :=
  if condition then .ok () else .error .assertion

namespace Mounted

/-- `FileSystem(false)` -/
def mount (disk : Disk) : Except Fault Mounted := do
  let freeMapFile ← OpenFile.opened disk freeMapSector
  let directoryFile ← OpenFile.opened disk directorySector
  return ⟨disk, freeMapFile, directoryFile⟩

/-- `FileSystem(true)` -/
def format (memory : Memory) (disk : Disk) : Except Fault Mounted := do
  let freeMap ← BitMap.new memory.words numSectors
  let directory := Directory.new memory.entries numDirEntries
  let freeMap ← freeMap.mark freeMapSector
  let freeMap ← freeMap.mark directorySector
  let (done, mapHdr, freeMap) ← FileHeader.allocate memory.words freeMap freeMapFileSize
  assertTrue done
  let (done, dirHdr, freeMap) ← FileHeader.allocate memory.words freeMap directoryFileSize
  assertTrue done
  let disk ← mapHdr.writeBack disk freeMapSector
  let disk ← dirHdr.writeBack disk directorySector
  let s ← mount disk
  let disk ← writeArray memory.bytes s.disk s.freeMapFile freeMap.map
  let disk ← writeArray memory.bytes disk s.directoryFile directory
  return { s with disk }

def create (memory : Memory) (s : Mounted) (name : List UInt8) (initialSize : Word) :
    Except Fault (Bool × Mounted) := do
  let directory ← fetchDirectory memory s
  if directory.find name ≠ -1 then return (false, s)
  let freeMap ← fetchMap memory s
  let (freeMap, sector) ← freeMap.find
  if sector = -1 then return (false, s)
  let (added, directory) := directory.add name sector
  if !added then return (false, s)
  let (allocated, hdr, freeMap) ← FileHeader.allocate memory.words freeMap initialSize
  if !allocated then return (false, s)
  let disk ← hdr.writeBack s.disk sector
  let disk ← writeArray memory.bytes disk s.directoryFile directory
  let disk ← writeArray memory.bytes disk s.freeMapFile freeMap.map
  return (true, { s with disk })

/-- `Open`, whose name is a keyword here -/
def openFile (memory : Memory) (s : Mounted) (name : List UInt8) :
    Except Fault (Option OpenFile) := do
  let directory ← fetchDirectory memory s
  let sector := directory.find name
  if sector ≥ 0 then (OpenFile.opened s.disk sector).map some else return none

def remove (memory : Memory) (s : Mounted) (name : List UInt8) :
    Except Fault (Bool × Mounted) := do
  let directory ← fetchDirectory memory s
  let sector := directory.find name
  if sector = -1 then return (false, s)
  let fileHdr ← FileHeader.fetchFrom s.disk sector
  let freeMap ← fetchMap memory s
  let freeMap ← fileHdr.deallocate freeMap
  let freeMap ← freeMap.clear sector
  let (_, directory) := directory.remove name
  let disk ← writeArray memory.bytes s.disk s.freeMapFile freeMap.map
  let disk ← writeArray memory.bytes disk s.directoryFile directory
  return (true, { s with disk })

end Mounted

/-! What a disk holds. -/

/-- The header of the file of an entry. -/
def header (d : Disk) (e : DirectoryEntry) : FileHeader := Image.decode (d e.sector.toNat).bytes

/-- The sectors of the bitmap and of the directory, with their headers. -/
def systemSectors : List ℕ := [0, 1, 2, 3, 4]

def fileSectors (d : Disk) (e : DirectoryEntry) : List ℕ :=
  e.sector.toNat :: (header d e).sectors

def usedSectors (d : Disk) (files : List DirectoryEntry) : List ℕ :=
  systemSectors ++ files.flatMap (fileSectors d)

/-- As many sectors as there are bytes to store. -/
def sectorCount (bytes : ℕ) : ℕ := (bytes + (sectorSize - 1)) / sectorSize

/-- A file that has its header at one of the first sectors. -/
structure SystemFile (d : Disk) (file : OpenFile) (sector length : ℕ) (sectors : List ℕ) :
    Prop where
  header : Image.decode (d sector).bytes = file.hdr
  seekPosition : file.seekPosition = 0
  length : file.hdr.fileLength = length
  sectors : file.hdr.sectors = sectors

/-- No sector has two uses, and the bitmap on the disk tells which have one. -/
structure Valid (s : Mounted) (freeMap : BitMap) (table : Directory) : Prop where
  freeMapFile : SystemFile s.disk s.freeMapFile freeMapSector 128 [2]
  directoryFile : SystemFile s.disk s.directoryFile directorySector 200 [3, 4]
  sized : Sized freeMap
  numBits : freeMap.numBits = numSectors
  mapOnDisk : contents s.disk s.freeMapFile.hdr = encodeAll freeMap.map
  entries : table.length = numDirEntries
  tableOnDisk : contents s.disk s.directoryFile.hdr = encodeAll table
  keys : (table.files.map DirectoryEntry.key).Nodup
  nodup : (usedSectors s.disk table.files).Nodup
  bits : ∀ n, n ∈ usedSectors s.disk table.files ↔ n < numSectors ∧ freeMap.bits n = true
  whole : ∀ e ∈ table.files, (header s.disk e).numSectors.toInt.toNat ≤ numDirect ∧
    (header s.disk e).sectors.length = sectorCount (header s.disk e).fileLength.toNat

end Nachos.FileSystem
