/-
  Function symbols of ELF images: `common/src/elf/sym-elf.cpp`.

  1. **Program** — the class byte says which of two layouts the headers, sections and symbols have.
     One walk over the sections notes the index of `.text`, the two symbol tables and their string
     tables; each of the two tables that has its strings is then walked for functions in `.text`.

  2. **Specification** — an image that holds a file (`Describes`, wherever in it the parts are) is
     read as the functions of that file: of `.symtab`, then of the dynamic table, in their order.

  3. **The crux (`foldl_visit`)** — of several sections that could be meant the LAST one counts.

  Addresses are relative to the image; the machine is little-endian, whatever the image says of itself,
  and its words have 64 bits.
-/
import MicroProfiler.Lib.Layout
import Mathlib.Data.List.Induction

namespace MicroProfiler.Elf

open Lib (Memory)

/-- `bitness`; an image of another class is unsupported. -/
inductive Bitness
  | bits32
  | bits64
deriving DecidableEq, Repr

/-- `get_bitness`. -/
def getBitness (image : Memory UInt8) : Option Bitness :=
  if image 4 = 1 then some .bits32 else if image 4 = 2 then some .bits64 else none

/-- To `ptrdiff_t`. -/
def ptrdiff (v : Nat) : Int := if v < 0x8000000000000000 then v else v - 0x10000000000000000

/-! ## Layouts -/

/-- What follows `e_ident` in `Elf32_Ehdr` and `Elf64_Ehdr`. -/
structure FileHeader where
  type : Nat
  machine : Nat
  version : Nat
  entry : Nat
  phoff : Nat
  shoff : Nat
  flags : Nat
  ehsize : Nat
  phentsize : Nat
  phnum : Nat
  shentsize : Nat
  shnum : Nat
  shstrndx : Nat
deriving DecidableEq, Repr, Inhabited

/-- How many bytes each field has, in the order they are stored in. -/
def FileHeader.widths : Bitness → List Nat
  | .bits32 => [2, 2, 4, 4, 4, 4, 4, 2, 2, 2, 2, 2, 2]
  | .bits64 => [2, 2, 4, 8, 8, 8, 4, 2, 2, 2, 2, 2, 2]

/-- The fields as the row of numbers that the library's records are. -/
def FileHeader.fields (h : FileHeader) : List Nat :=
  [h.type, h.machine, h.version, h.entry, h.phoff, h.shoff, h.flags, h.ehsize, h.phentsize, h.phnum,
    h.shentsize, h.shnum, h.shstrndx]

/-- And back; no row of another length is ever read. -/
def FileHeader.ofFields : List Nat → FileHeader
  | [type, machine, version, entry, phoff, shoff, flags, ehsize, phentsize, phnum, shentsize, shnum,
      shstrndx] =>
    ⟨type, machine, version, entry, phoff, shoff, flags, ehsize, phentsize, phnum, shentsize, shnum,
      shstrndx⟩
  | _ => default

/-- `Elf32_Shdr`, `Elf64_Shdr`. -/
structure SectionHeader where
  name : Nat
  type : Nat
  flags : Nat
  addr : Nat
  offset : Nat
  size : Nat
  /-- read by no code: the strings of a table are found by their name -/
  link : Nat
  info : Nat
  addralign : Nat
  entsize : Nat
deriving DecidableEq, Repr, Inhabited

/-- Where the two classes differ is flags, addresses, offsets and sizes. -/
def SectionHeader.widths : Bitness → List Nat
  | .bits32 => [4, 4, 4, 4, 4, 4, 4, 4, 4, 4]
  | .bits64 => [4, 4, 8, 8, 8, 8, 4, 4, 8, 8]

def SectionHeader.fields (h : SectionHeader) : List Nat :=
  [h.name, h.type, h.flags, h.addr, h.offset, h.size, h.link, h.info, h.addralign, h.entsize]

def SectionHeader.ofFields : List Nat → SectionHeader
  | [name, type, flags, addr, offset, size, link, info, addralign, entsize] =>
    ⟨name, type, flags, addr, offset, size, link, info, addralign, entsize⟩
  | _ => default

/-- `Elf32_Sym`, `Elf64_Sym`. -/
structure SymbolEntry where
  name : Nat
  value : Nat
  size : Nat
  info : Nat
  other : Nat
  shndx : Nat
deriving DecidableEq, Repr, Inhabited

/-- The two classes store the fields in different order too: with 64 bits the value and the size are
    last. -/
def SymbolEntry.widths : Bitness → List Nat
  | .bits32 => [4, 4, 4, 1, 1, 2]
  | .bits64 => [4, 1, 1, 2, 8, 8]

/-- The fields in the order of the class. -/
def SymbolEntry.fields (s : SymbolEntry) : Bitness → List Nat
  | .bits32 => [s.name, s.value, s.size, s.info, s.other, s.shndx]
  | .bits64 => [s.name, s.info, s.other, s.shndx, s.value, s.size]

def SymbolEntry.ofFields : Bitness → List Nat → SymbolEntry
  | .bits32, [name, value, size, info, other, shndx] => ⟨name, value, size, info, other, shndx⟩
  | .bits64, [name, info, other, shndx, value, size] => ⟨name, value, size, info, other, shndx⟩
  | _, _ => default

@[simp] theorem FileHeader.ofFields_fields (h : FileHeader) : ofFields h.fields = h := rfl

@[simp] theorem SectionHeader.ofFields_fields (h : SectionHeader) : ofFields h.fields = h := rfl

@[simp] theorem SymbolEntry.ofFields_fields (s : SymbolEntry) (b : Bitness) :
    ofFields b (s.fields b) = s := by
  cases b <;> rfl

/-! ## Reading -/

/-- `section`; the name is an address. -/
structure Section where
  /-- its place in the table of sections, which symbols refer to it by -/
  index : Nat
  fileOffset : Int
  /-- relative to the image -/
  virtualAddress : Int
  name : Int
  type : Nat
  size : Nat
  entrySize : Nat
  addressAlign : Nat
deriving DecidableEq, Repr

/-- `section s = { }`. -/
def Section.none : Section := ⟨0, 0, 0, 0, 0, 0, 0, 0⟩

/-- `symbol`. -/
structure Symbol where
  /-- where its characters are in the image -/
  name : Int
  virtualAddress : Int
  size : Nat
deriving DecidableEq, Repr

/-- `shdrs[i]`. -/
def sectionHeader (b : Bitness) (image : Memory UInt8) (shoff i : Nat) : SectionHeader :=
  .ofFields (image.readRecord (shoff + (i * (SectionHeader.widths b).sum : Nat)) (SectionHeader.widths b))

/-- What the loop of `read_sections` passes on; `strtab` is where the names are. -/
def Section.of (strtab : Nat) (shdr : SectionHeader) (i : Nat) : Section where
  index := i
  name := strtab + shdr.name
  type := shdr.type
  virtualAddress := ptrdiff shdr.addr
  fileOffset := ptrdiff shdr.offset
  size := shdr.size
  entrySize := shdr.entsize
  addressAlign := shdr.addralign

/-- `read_sections`: the calls of the callback. -/
def readSections (b : Bitness) (image : Memory UInt8) : List Section :=
  let ehdr := FileHeader.ofFields (image.readRecord 16 (FileHeader.widths b))
  let strhdr := sectionHeader b image ehdr.shoff ehdr.shstrndx
  (List.range ehdr.shnum).map fun i =>
    Section.of strhdr.offset (sectionHeader b image ehdr.shoff i) i

/-- `SHT_SYMTAB`. -/
def symtabType : Nat := 2

/-- `SHT_STRTAB`. -/
def strtabType : Nat := 3

/-- `SHT_DYNSYM`. -/
def dynsymType : Nat := 11

/-- `STT_FUNC`. -/
def funcType : Nat := 2

/-- The characters of a name. -/
def chars (s : List Char) : List UInt8 := s.map fun c => UInt8.ofNat c.toNat

def textName : List UInt8 := chars ['.', 't', 'e', 'x', 't']

def strtabName : List UInt8 := chars ['.', 's', 't', 'r', 't', 'a', 'b']

def dynstrName : List UInt8 := chars ['.', 'd', 'y', 'n', 's', 't', 'r']

/-- What `read_symbols` notes on its walk. -/
structure Noted where
  /-- of `.text` -/
  codeSectionIndex : Nat
  symtab : Section
  dynsym : Section
  /-- where the names of the symbols start, if their section was seen -/
  strtab : Option Int
  dynstr : Option Int
deriving DecidableEq, Repr

/-- Two walks have noted the same if they agree on the five fields; the step lemma takes these one
    by one. -/
@[ext] theorem Noted.ext' {n n' : Noted} (hcode : n.codeSectionIndex = n'.codeSectionIndex)
    (hsymtab : n.symtab = n'.symtab) (hdynsym : n.dynsym = n'.dynsym) (hstrtab : n.strtab = n'.strtab)
    (hdynstr : n.dynstr = n'.dynstr) : n = n' := by
  cases n
  cases n'
  congr

/-- What the locals of `read_symbols` start with: section 0, two tables of no symbols, no strings.
    -/
def Noted.nothing : Noted := ⟨0, .none, .none, none, none⟩

/-- The callback of `read_symbols`. -/
def Noted.visit (image : Memory UInt8) (n : Noted) (s : Section) : Noted :=
  -- the name `.text` counts whatever the type of the section
  let n := if Lib.stringEq image s.name textName then { n with codeSectionIndex := s.index } else n
  -- the tables are told by their type alone, the strings by both
  if s.type = strtabType then
    if Lib.stringEq image s.name strtabName then { n with strtab := some s.fileOffset }
    else if Lib.stringEq image s.name dynstrName then { n with dynstr := some s.fileOffset }
    else n
  else if s.type = symtabType then { n with symtab := s }
  else if s.type = dynsymType then { n with dynsym := s }
  else n

/-- One symbol: not a function, not of the code section or without a size is passed over. -/
def SymbolEntry.symbol (codeSectionIndex : Nat) (names : Int) (sd : SymbolEntry) : Option Symbol :=
  if sd.info % 16 ≠ funcType then none
  else if sd.shndx ≠ codeSectionIndex ∨ sd.size = 0 then none
  else some ⟨names + sd.name, ptrdiff sd.value, sd.size⟩

/-- `read_symbols` of one table. -/
def readTable (b : Bitness) (image : Memory UInt8) (codeSectionIndex : Nat) (symbols : Section)
    (names : Int) : List Symbol :=
  -- the size of a symbol is that of the class, not `sh_entsize`
  let totalSyms := symbols.size / (SymbolEntry.widths b).sum
  (Lib.readRows image symbols.fileOffset (SymbolEntry.widths b) totalSyms).filterMap fun row =>
    (SymbolEntry.ofFields b row).symbol codeSectionIndex names

/-- `read_symbols`: the calls of the callback, or the exception. -/
def readSymbols (image : Memory UInt8) : Option (List Symbol) :=
  (getBitness image).map fun b =>
    let n := (readSections b image).foldl (Noted.visit image) .nothing
    -- a table is read only if its strings were seen, `.symtab` before `.dynsym`
    (match n.strtab with
      | some strtab => readTable b image n.codeSectionIndex n.symtab strtab
      | none => []) ++
    (match n.dynstr with
      | some dynstr => readTable b image n.codeSectionIndex n.dynsym dynstr
      | none => [])

/-! ## Files -/

/-- A section with its name, and the symbols it holds if it is a table of them. -/
structure Part where
  header : SectionHeader
  name : List UInt8
  entries : List SymbolEntry
deriving DecidableEq, Repr

/-- An ELF file of either class. -/
structure File where
  bitness : Bitness
  header : FileHeader
  parts : List Part
deriving DecidableEq, Repr

/-- `image` holds the part, with its name among the names at `strtab`. -/
structure Part.In (image : Memory UInt8) (b : Bitness) (strtab : Nat) (p : Part) : Prop where
  fits : Lib.Fits (SectionHeader.widths b) p.header.fields
  offset : p.header.offset < 0x8000000000000000
  name : Lib.HoldsString image (strtab + p.header.name) p.name
  entries : ∀ e ∈ p.entries, Lib.Fits (SymbolEntry.widths b) (e.fields b)
  /-- only of a table of symbols are the contents read -/
  table : p.header.type = symtabType ∨ p.header.type = dynsymType →
    p.header.size / (SymbolEntry.widths b).sum = p.entries.length ∧
      image.Holds p.header.offset (p.entries.flatMap fun e => Lib.record (SymbolEntry.widths b) (e.fields b))

/-- `image` holds the file: the headers where they belong, the rest wherever they say. -/
structure Describes (image : Memory UInt8) (f : File) : Prop where
  bitness : getBitness image = some f.bitness
  header : Lib.Fits (FileHeader.widths f.bitness) f.header.fields ∧
    image.Holds 16 (Lib.record (FileHeader.widths f.bitness) f.header.fields)
  count : f.header.shnum = f.parts.length
  sections : image.Holds f.header.shoff
    (f.parts.flatMap fun p => Lib.record (SectionHeader.widths f.bitness) p.header.fields)
  /-- one of the parts holds the names of all of them -/
  parts : ∃ strings, f.parts[f.header.shstrndx]? = some strings ∧
    ∀ p ∈ f.parts, p.In image f.bitness strings.header.offset

/-- The last part of some kind, with its index. -/
def File.last (f : File) (kind : Part → Bool) : Option (Part × Nat) :=
  (f.parts.zipIdx.filter fun p => kind p.1).getLast?

/-- The section whose functions are wanted. -/
def Part.isText (p : Part) : Bool := p.name == textName

/-- Strings of that name; another section may be called so. -/
def Part.isStrings (name : List UInt8) (p : Part) : Bool :=
  p.header.type == strtabType && p.name == name

/-- A table of symbols of that kind. -/
def Part.isTable (type : Nat) (p : Part) : Bool := p.header.type == type

/-- The functions of one symbol table, if its strings are there: in the last section of strings that
    has the name, not the one that `sh_link` says.  Where no section is called `.text`, the reader takes
    the one at 0 for it. -/
def File.functionsOf (f : File) (type : Nat) (strings : List UInt8) : List Symbol :=
  match f.last (Part.isStrings strings) with
  | none => []
  | some names =>
    let text := ((f.last Part.isText).map Prod.snd).getD 0
    let entries := ((f.last (Part.isTable type)).map fun p => p.1.entries).getD []
    let functions := entries.filter fun e => e.info % 16 = funcType ∧ e.shndx = text ∧ e.size ≠ 0
    functions.map fun e => ⟨names.1.header.offset + e.name, ptrdiff e.value, e.size⟩

/-- What a file is to be read as.  How many sections there are and where their names are is what the
    header itself says: the numbering of files with more than 65279 sections is not known. -/
def File.functions (f : File) : List Symbol :=
  f.functionsOf symtabType strtabName ++ f.functionsOf dynsymType dynstrName

/-! ## A file is read -/

/-- Offsets inside a file are no negative numbers. -/
theorem ptrdiff_of_lt {v : Nat} (h : v < 0x8000000000000000) : ptrdiff v = v := if_pos h

/-- The header of a part is found at the part's place in the table: all of them have the size of the
    class. -/
theorem Describes.sectionHeader {image : Memory UInt8} {f : File} (h : Describes image f) {i : Nat}
    {p : Part} (hp : f.parts[i]? = some p) :
    Elf.sectionHeader f.bitness image f.header.shoff i = p.header := by
  obtain ⟨strings, _, hparts⟩ := h.parts
  -- the table of sections as rows of numbers
  have hrows : image.Holds f.header.shoff ((f.parts.map fun p => p.header.fields).flatMap
      (Lib.record (SectionHeader.widths f.bitness))) := by
    rw [List.flatMap_map]
    exact h.sections
  -- every row is one that the widths can hold, so that reading gives it back
  have hfits : ∀ row ∈ f.parts.map fun p => p.header.fields,
      Lib.Fits (SectionHeader.widths f.bitness) row := by
    intro row hrow
    obtain ⟨p, hp, rfl⟩ := List.mem_map.mp hrow
    exact (hparts p hp).fits
  have hget : (f.parts.map fun p => p.header.fields)[i]? = some p.header.fields := by
    rw [List.getElem?_map, hp, Option.map_some]
  have hrow := Lib.readRow_of_holds hfits hrows hget
  rw [Elf.sectionHeader, hrow, SectionHeader.ofFields_fields]

/-- The sections, each with its index. -/
theorem Describes.readSections {image : Memory UInt8} {f : File} (h : Describes image f)
    {strings : Part} (hstrings : f.parts[f.header.shstrndx]? = some strings) :
    Elf.readSections f.bitness image =
      f.parts.zipIdx.map fun p => Section.of strings.header.offset p.1.header p.2 := by
  -- the header says where the table is and which section has the names
  have hheader : FileHeader.ofFields (image.readRecord 16 (FileHeader.widths f.bitness)) = f.header := by
    rw [Lib.readRecord_of_holds h.header.1 h.header.2, FileHeader.ofFields_fields]
  unfold Elf.readSections
  rw [hheader]
  dsimp only
  rw [h.sectionHeader hstrings, h.count]
  -- section by section
  refine List.ext_getElem? fun i => ?_
  rw [List.getElem?_map, List.getElem?_map, List.getElem?_zipIdx]
  by_cases hi : i < f.parts.length
  · rw [List.getElem?_range hi, List.getElem?_eq_getElem hi]
    simp only [Option.map_some, Nat.zero_add]
    rw [h.sectionHeader (List.getElem?_eq_getElem hi)]
  · rw [List.getElem?_eq_none (by simpa using hi), List.getElem?_eq_none (by simpa using hi)]
    rfl

/-- The last of some kind. -/
def lastOf (kind : Part → Bool) (l : List (Part × Nat)) : Option (Part × Nat) :=
  (l.filter fun p => kind p.1).getLast?

/-- One more section is the last of its kind, or changes nothing. -/
theorem lastOf_append_singleton (kind : Part → Bool) (l : List (Part × Nat)) (p : Part × Nat) :
    lastOf kind (l ++ [p]) = if kind p.1 then some p else lastOf kind l := by
  unfold lastOf
  rw [List.filter_append]
  by_cases h : kind p.1 = true
  · simp [h]
  · simp [h]

/-- What has been noted once the sections `l` were visited. -/
def noted (strtab : Nat) (l : List (Part × Nat)) : Noted where
  codeSectionIndex := ((lastOf Part.isText l).map Prod.snd).getD 0
  symtab := ((lastOf (Part.isTable symtabType) l).map fun p => Section.of strtab p.1.header p.2).getD .none
  dynsym := ((lastOf (Part.isTable dynsymType) l).map fun p => Section.of strtab p.1.header p.2).getD .none
  strtab := (lastOf (Part.isStrings strtabName) l).map fun p => (p.1.header.offset : Int)
  dynstr := (lastOf (Part.isStrings dynstrName) l).map fun p => (p.1.header.offset : Int)

namespace Noted

variable (image : Memory UInt8) (n : Noted) (s : Section)

/-- One equation for each field, so that the step lemma never unfolds the callback. -/
theorem visit_codeSectionIndex : (n.visit image s).codeSectionIndex =
    if Lib.stringEq image s.name textName then s.index else n.codeSectionIndex := by
  unfold visit
  split <;> (dsimp only; repeat' split) <;> rfl

theorem visit_symtab : (n.visit image s).symtab = if s.type = symtabType then s else n.symtab := by
  unfold visit
  grind [strtabType, symtabType]

theorem visit_dynsym : (n.visit image s).dynsym = if s.type = dynsymType then s else n.dynsym := by
  unfold visit
  grind [strtabType, symtabType, dynsymType]

theorem visit_strtab : (n.visit image s).strtab =
    if s.type = strtabType ∧ Lib.stringEq image s.name strtabName = true then some s.fileOffset
    else n.strtab := by
  unfold visit
  grind

/-- The second of two tests: it is reached only by what is not called `.strtab`. -/
theorem visit_dynstr : (n.visit image s).dynstr =
    if s.type = strtabType ∧ Lib.stringEq image s.name strtabName = false ∧
      Lib.stringEq image s.name dynstrName = true then some s.fileOffset
    else n.dynstr := by
  unfold visit
  grind

end Noted

/-- One section more: each of the five fields goes by its own rule, and each is the last of its kind
    after it. -/
theorem visit_noted {image : Memory UInt8} {b : Bitness} {strtab : Nat} {l : List (Part × Nat)}
    {p : Part × Nat} (hp : p.1.In image b strtab) :
    (noted strtab l).visit image (Section.of strtab p.1.header p.2) = noted strtab (l ++ [p]) := by
  -- comparing with a name in the image is comparing with the name of the part
  have hname : ∀ s, 0 ∉ s → Lib.stringEq image (Section.of strtab p.1.header p.2).name s =
      (p.1.name == s) := by
    intro s hs
    show Lib.stringEq image (strtab + p.1.header.name) s = _
    rw [Bool.eq_iff_iff, Lib.stringEq_iff hp.name hs, beq_iff_eq]
  have hoffset : (Section.of strtab p.1.header p.2).fileOffset = p.1.header.offset :=
    ptrdiff_of_lt hp.offset
  have htype : (Section.of strtab p.1.header p.2).type = p.1.header.type := rfl
  ext1
  · -- `.text`
    rw [Noted.visit_codeSectionIndex, hname textName (by decide)]
    simp only [noted, lastOf_append_singleton, Part.isText, beq_iff_eq]
    split <;> rfl
  · -- the tables
    rw [Noted.visit_symtab, htype]
    simp only [noted, lastOf_append_singleton, Part.isTable, beq_iff_eq]
    split <;> rfl
  · rw [Noted.visit_dynsym, htype]
    simp only [noted, lastOf_append_singleton, Part.isTable, beq_iff_eq]
    split <;> rfl
  · -- the strings of `.symtab`
    rw [Noted.visit_strtab, hname strtabName (by decide), hoffset, htype]
    simp only [noted, lastOf_append_singleton, Part.isStrings, Bool.and_eq_true, beq_iff_eq]
    split <;> rfl
  · rw [Noted.visit_dynstr, hname strtabName (by decide), hname dynstrName (by decide), hoffset, htype]
    -- the two names exclude each other
    have hnames : (p.1.name == strtabName) = false ∧ (p.1.name == dynstrName) = true ↔
        p.1.name = dynstrName := by
      rw [beq_eq_false_iff_ne, beq_iff_eq]
      exact ⟨And.right, fun h => ⟨by rw [h]; decide, h⟩⟩
    simp only [hnames]
    simp only [noted, lastOf_append_singleton, Part.isStrings, Bool.and_eq_true, beq_iff_eq]
    split <;> rfl

/-- **The walk over the sections** notes the last of every kind: by induction from the end of the
    list, since that is where the walk adds to it. -/
theorem foldl_visit {image : Memory UInt8} {b : Bitness} {strtab : Nat} (l : List (Part × Nat))
    (hl : ∀ p ∈ l, p.1.In image b strtab) :
    (l.map fun p => Section.of strtab p.1.header p.2).foldl (Noted.visit image) .nothing =
      noted strtab l := by
  induction l using List.reverseRecOn with
  | nil => rfl
  | append_singleton l p ih =>
    rw [List.map_append, List.foldl_append, ih fun q hq => hl q (List.mem_append_left _ hq)]
    exact visit_noted (hl p (by simp))

/-- **One table**, of a part that is there. -/
theorem readTable_of_in {image : Memory UInt8} {b : Bitness} {strtab : Nat} {p : Part}
    (hp : p.In image b strtab) (htype : p.header.type = symtabType ∨ p.header.type = dynsymType)
    (i text : Nat) (names : Int) :
    readTable b image text (Section.of strtab p.header i) names =
      p.entries.filterMap (SymbolEntry.symbol text names) := by
  obtain ⟨hcount, hholds⟩ := hp.table htype
  -- what is read row by row is what the part holds
  have hrows : Lib.readRows image p.header.offset (SymbolEntry.widths b)
      (p.entries.map fun e => e.fields b).length = p.entries.map fun e => e.fields b := by
    refine Lib.readRows_of_holds (fun row hrow => ?_) ?_
    · obtain ⟨e, he, rfl⟩ := List.mem_map.mp hrow
      exact hp.entries e he
    · rw [List.flatMap_map]
      exact hholds
  rw [List.length_map] at hrows
  have hoffset : (Section.of strtab p.header i).fileOffset = p.header.offset := ptrdiff_of_lt hp.offset
  have hsize : (Section.of strtab p.header i).size = p.header.size := rfl
  rw [readTable, hoffset, hsize, hcount, hrows, List.filterMap_map]
  exact List.filterMap_congr fun e _ => congrArg (SymbolEntry.symbol text names) (e.ofFields_fields b)

/-- The conditions as one filter: the code tests them one after another and passes a symbol over at
    the first that fails. -/
theorem filterMap_symbol (text : Nat) (names : Int) : ∀ entries : List SymbolEntry,
    entries.filterMap (SymbolEntry.symbol text names) =
      (entries.filter fun e => e.info % 16 = funcType ∧ e.shndx = text ∧ e.size ≠ 0).map fun e =>
        ⟨names + e.name, ptrdiff e.value, e.size⟩
  | [] => rfl
  | e :: entries => by
    have ih := filterMap_symbol text names entries
    by_cases h : e.info % 16 = funcType ∧ e.shndx = text ∧ e.size ≠ 0
    · have hsome : e.symbol text names = some ⟨names + e.name, ptrdiff e.value, e.size⟩ := by
        rw [SymbolEntry.symbol, if_neg (not_not.mpr h.1), if_neg (by simp [h.2])]
      rw [List.filterMap_cons_some hsome, ih, List.filter_cons_of_pos (by simpa using h), List.map_cons]
    · have hnone : e.symbol text names = none := by
        unfold SymbolEntry.symbol
        split
        · rfl
        · rw [if_pos]
          grind
      rw [List.filterMap_cons_none hnone, ih, List.filter_cons_of_neg (by simpa using h)]

/-- The last of some kind is one of them, and of that kind. -/
theorem mem_of_lastOf {kind : Part → Bool} {l : List (Part × Nat)} {p : Part × Nat}
    (h : lastOf kind l = some p) : p ∈ l ∧ kind p.1 = true :=
  List.mem_filter.mp (List.mem_of_getLast? h)

/-- **One table of the file**, with its strings. -/
theorem Describes.functionsOf {image : Memory UInt8} {f : File} {strtab : Nat}
    (hparts : ∀ p ∈ f.parts, p.In image f.bitness strtab) {type : Nat}
    (htype : type = symtabType ∨ type = dynsymType) (strings : List UInt8) :
    (match (f.last (Part.isStrings strings)).map fun p => (p.1.header.offset : Int) with
      | some names => readTable f.bitness image (((f.last Part.isText).map Prod.snd).getD 0)
          (((f.last (Part.isTable type)).map fun p => Section.of strtab p.1.header p.2).getD .none) names
      | none => []) = f.functionsOf type strings := by
  unfold File.functionsOf
  cases f.last (Part.isStrings strings) with
  -- no strings: nothing is read, and the file has no functions there
  | none => rfl
  | some names =>
    dsimp only [Option.map_some]
    cases htable : f.last (Part.isTable type) with
    -- strings of no table: a table of no symbols is read
    | none => simp [readTable, Section.none, Lib.readRows]
    | some p =>
      obtain ⟨hmem, hkind⟩ := mem_of_lastOf htable
      have hkind : p.1.header.type = type := beq_iff_eq.mp hkind
      have hp := hparts p.1 (List.fst_mem_of_mem_zipIdx hmem)
      simp only [Option.map_some, Option.getD_some]
      rw [readTable_of_in hp (hkind ▸ htype), filterMap_symbol]

/-- **An image that holds a file is read as its functions.** -/
theorem readSymbols_describes {image : Memory UInt8} {f : File} (h : Describes image f) :
    readSymbols image = some f.functions := by
  obtain ⟨strings, hstrings, hparts⟩ := h.parts
  have hall : ∀ p ∈ f.parts.zipIdx, p.1.In image f.bitness strings.header.offset :=
    fun p hp => hparts p.1 (List.fst_mem_of_mem_zipIdx hp)
  -- what the walk has noted, then one table after the other
  have hfold := foldl_visit f.parts.zipIdx hall
  rw [← h.readSections hstrings] at hfold
  rw [readSymbols, h.bitness, Option.map_some]
  dsimp only
  rw [hfold]
  refine congrArg some (congrArg₂ (· ++ ·) ?_ ?_)
  · exact Describes.functionsOf hparts (.inl rfl) strtabName
  · exact Describes.functionsOf hparts (.inr rfl) dynstrName

/-- Three functions, one of them with no size; an object; a function of another section. -/
def sample32 : File where
  bitness := .bits32
  header := ⟨3, 3, 1, 0x1000, 0, 52, 0, 52, 0, 0, 40, 4, 3⟩
  parts := [
    ⟨⟨0, 0, 0, 0, 0, 0, 0, 0, 0, 0⟩, [], []⟩,
    ⟨⟨1, 1, 6, 0x1000, 0, 0, 0, 0, 16, 0⟩, textName, []⟩,
    ⟨⟨7, 2, 0, 0, 212, 80, 3, 0, 4, 16⟩, chars ['.', 's'],
      [⟨18, 0x1010, 5, 0x12, 0, 1⟩, ⟨18, 0x1020, 0, 0x12, 0, 1⟩, ⟨18, 0x2000, 4, 0x11, 0, 1⟩,
        ⟨18, 0x3000, 4, 0x12, 0, 2⟩, ⟨19, 0x1030, 9, 0x02, 0, 1⟩]⟩,
    ⟨⟨10, 3, 0, 0, 292, 21, 0, 0, 1, 0⟩, strtabName, []⟩]

/-- Its bytes. -/
def sample32Bytes : List UInt8 :=
  [0x7F, 0x45, 0x4C, 0x46, 1, 1, 1, 0, 0, 0, 0, 0, 0, 0, 0, 0] ++
    Lib.record (FileHeader.widths .bits32) sample32.header.fields ++
    sample32.parts.flatMap (fun p : Part =>
      Lib.record (SectionHeader.widths .bits32) p.header.fields) ++
    sample32.parts.flatMap (fun p : Part => p.entries.flatMap fun e =>
      Lib.record (SymbolEntry.widths .bits32) (e.fields .bits32)) ++
    [0] ++ textName ++ [0] ++ chars ['.', 's'] ++ [0] ++ strtabName ++ [0] ++ chars ['f', 'n'] ++ [0]

/-- The image ends where the file does; behind it there are zeros. -/
def sample32Image : Memory UInt8 := fun a => sample32Bytes.getD a.toNat 0

theorem sample32_describes : Describes sample32Image sample32 where
  bitness := by decide +kernel
  header := ⟨by decide, by decide +kernel⟩
  count := rfl
  sections := by decide +kernel
  parts := by
    refine ⟨_, rfl, fun p hp => ?_⟩
    rcases List.mem_cons.mp hp with rfl | hp
    · exact ⟨by decide, by decide, by decide +kernel, by decide, by decide⟩
    rcases List.mem_cons.mp hp with rfl | hp
    · exact ⟨by decide, by decide, by decide +kernel, by decide, by decide⟩
    rcases List.mem_cons.mp hp with rfl | hp
    · exact ⟨by decide, by decide, by decide +kernel, by decide, fun _ => ⟨rfl, by decide +kernel⟩⟩
    obtain rfl := List.mem_singleton.mp hp
    exact ⟨by decide, by decide, by decide +kernel, by decide, by decide⟩

theorem readSymbols_describes_sample32 :
    readSymbols sample32Image = some [⟨310, 0x1010, 5⟩, ⟨311, 0x1030, 9⟩] :=
  readSymbols_describes sample32_describes

end MicroProfiler.Elf
