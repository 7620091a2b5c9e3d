/-
  Codecs written once for both directions.

  A `Codec` writes a value as tokens and reads tokens INTO a value that is already there: fields
  that a codec does not visit keep what they had.  So the law of a codec is not "reading gives the
  value back" but `Copies`: reading what was written of `a` into `b` gives `copy a b` and leaves
  the rest of the tokens.  Copies compose like assignments do (`Copies.seq`, `Copies.field`), and a
  codec that visits every field ends up with `copy a b = a`.

  Nothing here names the program.
-/
import Mathlib.Data.List.Basic

namespace MicroProfiler.Lib

/-- What an archive is made of.  Sizes and version tags are tokens of their own, so that a reader
    that is out of step fails at once. -/
inductive Token
  /-- a member of any arithmetic type -/
  | number (n : Int)
  | text (s : String)
  /-- how many items a container has -/
  | size (n : Nat)
  | version (n : Nat)
deriving DecidableEq, Repr

/-- How a value is put into an archive and taken out of it.  `read` is given the value that is to be
    filled, and fails on a token of another kind or on none. -/
structure Codec (σ : Type) where
  write : σ → List Token
  read : σ → List Token → Option (σ × List Token)

namespace Codec

variable {σ α β : Type}

/-- The law: what was written of `a`, read into `b`, gives `copy a b` and leaves what came after.
    The rest is quantified here so that laws compose without a look at it. -/
def Copies (c : Codec σ) (copy : σ → σ → σ) : Prop :=
  ∀ a b rest, c.read b (c.write a ++ rest) = some (copy a b, rest)

/-- Laws are proved with the `copy` the construction gives; this puts them in the form wanted. -/
theorem Copies.congr {c : Codec σ} {copy copy' : σ → σ → σ} (h : c.Copies copy)
    (heq : ∀ a b, copy a b = copy' a b) : c.Copies copy' := by
  intro a b rest
  rw [h, heq]

/-! ## Primitives -/

/-- A single number. -/
def number : Codec Int where
  write n := [.number n]
  read
    | _, .number n :: rest => some (n, rest)
    | _, _ => none

/-- A single text. -/
def text : Codec String where
  write s := [.text s]
  read
    | _, .text s :: rest => some (s, rest)
    | _, _ => none

/-- A primitive has no memory: what was there is overwritten whole. -/
theorem number_copies : number.Copies fun a _ => a := fun _ _ _ => rfl

/-- Likewise for texts. -/
theorem text_copies : text.Copies fun a _ => a := fun _ _ _ => rfl

/-- A value that is written as another: `f` on the way out, `g` on the way in. -/
def via (c : Codec β) (f : α → β) (g : β → α) : Codec α where
  write a := c.write (f a)
  read a tokens := (c.read (f a) tokens).map fun r => (g r.1, r.2)

/-- No law of `f` and `g` is asked for; where `g` does not undo `f`, the copy says what comes back.
    -/
theorem Copies.via {c : Codec β} {copy : β → β → β} (h : c.Copies copy) (f : α → β) (g : β → α) :
    (c.via f g).Copies fun a b => g (copy (f a) (f b)) := by
  intro a b rest
  show (c.read (f b) (c.write (f a) ++ rest)).map _ = _
  rw [h]
  rfl

/-- Unsigned members go through the same token as signed ones. -/
def natural : Codec Nat := number.via Int.ofNat Int.toNat

/-- `Int.toNat` undoes `Int.ofNat`, so nothing is lost. -/
theorem natural_copies : natural.Copies fun a _ => a := number_copies.via _ _

/-- Flags are written as 0 and 1, and read back as different from 0. -/
def boolean : Codec Bool := natural.via Bool.toNat fun n => n ≠ 0

/-- By the two values a flag has. -/
theorem boolean_copies : boolean.Copies fun a _ => a :=
  (natural_copies.via _ _).congr fun a _ => by cases a <;> rfl

/-! ## Structures -/

/-- A codec that visits nothing. -/
def skip : Codec σ where
  write _ := []
  read s tokens := some (s, tokens)

/-- So the value that is read into stays. -/
theorem skip_copies : (skip : Codec σ).Copies fun _ b => b := fun _ _ _ => rfl

/-- One member of a structure: the others are what they were before the read. -/
def field (c : Codec α) (get : σ → α) (set : σ → α → σ) : Codec σ where
  write s := c.write (get s)
  read s tokens := (c.read (get s) tokens).map fun r => (set s r.1, r.2)

/-- `copy` of a member changes the member of `b` and nothing else. -/
theorem Copies.field {c : Codec α} {copy : α → α → α} (h : c.Copies copy) (get : σ → α)
    (set : σ → α → σ) : (c.field get set).Copies fun a b => set b (copy (get a) (get b)) := by
  intro a b rest
  show (c.read (get b) (c.write (get a) ++ rest)).map _ = _
  rw [h]
  rfl

/-- A local variable of the serializing function: written as `init`, read and forgotten. -/
def scratch (c : Codec α) (init : α) : Codec σ where
  write _ := c.write init
  read s tokens := (c.read init tokens).map fun r => (s, r.2)

/-- The token is consumed, the value is as before. -/
theorem Copies.scratch {c : Codec α} {copy : α → α → α} (h : c.Copies copy) (init : α) :
    (c.scratch init : Codec σ).Copies fun _ b => b := by
  intro a b rest
  show (c.read init (c.write init ++ rest)).map _ = _
  rw [h]
  rfl

/-- One after the other, both on the same value. -/
def seq (c d : Codec σ) : Codec σ where
  write s := c.write s ++ d.write s
  read s tokens := (c.read s tokens).bind fun r => d.read r.1 r.2

/-- The second codec reads into what the first has left: copies compose in the order of the visits.
    -/
theorem Copies.seq {c d : Codec σ} {copy copy' : σ → σ → σ} (hc : c.Copies copy)
    (hd : d.Copies copy') : (c.seq d).Copies fun a b => copy' a (copy a b) := by
  intro a b rest
  show (c.read b ((c.write a ++ d.write a) ++ rest)).bind _ = _
  rw [List.append_assoc, hc, Option.bind_some, hd]

/-- A version tag, and what is serialized under that version; another version on the way in chooses
    another body. -/
def versioned (version : Nat) (body : Nat → Codec σ) : Codec σ where
  write s := .version version :: (body version).write s
  read
    | s, .version version :: tokens => (body version).read s tokens
    | _, _ => none

/-- Only the law of the version that is written is needed: that one is read back. -/
theorem Copies.versioned {version : Nat} {body : Nat → Codec σ} {copy : σ → σ → σ}
    (h : (body version).Copies copy) : (versioned version body).Copies copy :=
  fun a b rest => h a b rest

/-- A body that asks for its version, where the answer is yes. -/
theorem Copies.ite_pos {p : Prop} [Decidable p] {c d : Codec σ} {copy : σ → σ → σ} (hp : p)
    (h : c.Copies copy) : (if p then c else d).Copies copy := by
  rw [if_pos hp]
  exact h

/-- The same, where the answer is no. -/
theorem Copies.ite_neg {p : Prop} [Decidable p] {c d : Codec σ} {copy : σ → σ → σ} (hp : ¬ p)
    (h : d.Copies copy) : (if p then c else d).Copies copy := by
  rw [if_neg hp]
  exact h

/-- A pair is a structure of two members. -/
def pair (c : Codec α) (d : Codec β) : Codec (α × β) :=
  (c.field Prod.fst fun p a => (a, p.2)).seq (d.field Prod.snd fun p b => (p.1, b))

/-- With both members visited nothing of the old pair is left. -/
theorem Copies.pair {c : Codec α} {d : Codec β} (hc : c.Copies fun a _ => a)
    (hd : d.Copies fun a _ => a) : (c.pair d).Copies fun a _ => a :=
  ((hc.field _ _).seq (hd.field _ _)).congr fun _ _ => rfl

/-! ## Containers -/

/-- How items get into a container while it is read: each is made by `create`, read, and put in by
    `append`. -/
structure ItemReader (σ α : Type) where
  /-- what is done before the first item, clearing mostly -/
  prepare : σ → σ
  /-- an item to read into, and the container after it was made -/
  create : σ → σ × α
  /-- how the item that was read gets in -/
  append : σ → α → σ

/-- `append` what was made of an item. -/
def ItemReader.put (r : ItemReader σ α) (copy : α → α → α) (s : σ) (item : α) : σ :=
  r.append (r.create s).1 (copy item (r.create s).2)

/-- The reading loop, by the number of items announced: it stops at the first item that cannot be
    read. -/
def readItems (r : ItemReader σ α) (item : Codec α) : Nat → σ → List Token → Option (σ × List Token)
  | 0, s, tokens => some (s, tokens)
  | n + 1, s, tokens =>
      (item.read (r.create s).2 tokens).bind fun x =>
        readItems r item n (r.append (r.create s).1 x.1) x.2

/-- The size, and then the items one by one. -/
def container (contents : σ → List α) (r : ItemReader σ α) (item : Codec α) : Codec σ where
  write s := .size (contents s).length :: (contents s).flatMap item.write
  read
    | s, .size n :: tokens => readItems r item n (r.prepare s) tokens
    | _, _ => none

/-- The loop reads back as many items as were written, appending each.  By induction on the items:
    the first is read by the law of its codec, and the others from the tokens that law leaves. -/
theorem readItems_copies (r : ItemReader σ α) {item : Codec α} {copy : α → α → α}
    (h : item.Copies copy) : ∀ (items : List α) (s : σ) (rest : List Token),
    readItems r item items.length s (items.flatMap item.write ++ rest) =
      some (items.foldl (r.put copy) s, rest)
  -- nothing was announced, nothing is read
  | [], _, _ => rfl
  | x :: items, s, rest => by
    rw [List.flatMap_cons, List.append_assoc, List.length_cons, readItems, h, Option.bind_some,
      readItems_copies r h items]
    rfl

/-- The law of a container is the loop's law after `prepare`: the size token gives the loop its
    count. -/
theorem Copies.container (contents : σ → List α) (r : ItemReader σ α) {item : Codec α}
    {copy : α → α → α} (h : item.Copies copy) :
    (container contents r item).Copies fun a b =>
      (contents a).foldl (r.put copy) (r.prepare b) :=
  fun a b rest => readItems_copies r h (contents a) (r.prepare b) rest

/-- What is made of the items, appended one by one. -/
theorem foldl_concat (f : α → β) (items : List α) : ∀ done : List β,
    items.foldl (fun s x => s ++ [f x]) done = done ++ items.map f := by
  induction items with
  | nil => exact fun done => (List.append_nil done).symm
  | cons x items ih =>
    intro done
    rw [List.foldl_cons, ih, List.append_assoc, List.singleton_append, List.map_cons]

/-- A vector is cleared first and then appended to, each item read into a default one. -/
def vector [Inhabited α] (item : Codec α) : Codec (List α) :=
  container (fun s => s) ⟨fun _ => [], fun s => (s, default), fun s x => s ++ [x]⟩ item

/-- A vector of items that are read back is read back: what `append` gathers from nothing is the
    list. -/
theorem Copies.vector [Inhabited α] {item : Codec α} (h : item.Copies fun a _ => a) :
    (vector item).Copies fun a _ => a :=
  (Copies.container _ _ h).congr fun a _ => (foldl_concat id a []).trans (List.map_id a)

end Codec

end MicroProfiler.Lib
