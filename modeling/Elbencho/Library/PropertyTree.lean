import Mathlib.Data.List.Basic
import Mathlib.Data.UInt

/-!
# Property trees

A property tree is a text with an ordered list of named subtrees.  Two programs that talk to
each other put their values into such a tree under fixed keys, and take them out again.

* `Translator` is a type whose values are written as texts from which they can be read back.
* `put` writes a value under a key, and `get` reads it.
* `addChild` appends to a list under a key, and `items` are the entries of this list.
* `putTable` writes a value for each key of a table, whose types may differ.

Everything that is read under a key depends on `child?` at this key only, so the lemmas about
`child?` after a write (`child?_put`, `child?_addChild`) are all that is needed to read a
tree which is the result of many writes.
-/

namespace Elbencho

/-! ## Numbers as texts -/

namespace Decimal

/-- A non-empty list of digits is read as a number. -/
def read? (cs : List Char) : Option ℕ :=
  if cs ≠ [] ∧ cs.all Char.isDigit then some (Nat.ofDigitChars 10 cs 0) else none

/-- The digits of a number are read as this number. -/
@[simp] theorem read?_toDigits (n : ℕ) : read? (Nat.toDigits 10 n) = some n := by
  have hdigits : (Nat.toDigits 10 n).all Char.isDigit = true :=
    List.all_eq_true.mpr fun c hc => Nat.isDigit_of_mem_toDigits (by decide) (by decide) hc
  rw [read?, if_pos ⟨Nat.toDigits_ne_nil, hdigits⟩,
    Nat.ofDigitChars_toDigits (by decide) (by decide)]

/-- A number is not written with a sign. -/
theorem head?_toDigits_ne (n : ℕ) : (Nat.toDigits 10 n).head? ≠ some '-' := by
  intro h
  have hdigit : Char.isDigit '-' = true :=
    Nat.isDigit_of_mem_toDigits (by decide) (by decide) (List.mem_of_head? h)
  exact absurd hdigit (by decide)

/-- An integer is read with an optional sign. -/
def readInt? : List Char → Option ℤ
  | '-' :: cs => Option.map (fun n : ℕ => -(n : ℤ)) (read? cs)
  | cs => Option.map (fun n : ℕ => (n : ℤ)) (read? cs)

/-- An integer is written with a sign if it is negative. -/
def writeInt (i : ℤ) : List Char :=
  if i < 0 then '-' :: Nat.toDigits 10 i.natAbs else Nat.toDigits 10 i.natAbs

theorem readInt?_of_head? {cs : List Char} (h : cs.head? ≠ some '-') :
    readInt? cs = Option.map (fun n : ℕ => (n : ℤ)) (read? cs) := by
  unfold readInt?
  split
  · exact absurd rfl h
  · rfl

@[simp] theorem readInt?_writeInt (i : ℤ) : readInt? (writeInt i) = some i := by
  unfold writeInt
  split_ifs with hneg
  · rw [readInt?, read?_toDigits, Option.map_some]
    exact congrArg some (by omega)
  · rw [readInt?_of_head? (head?_toDigits_ne _), read?_toDigits, Option.map_some]
    exact congrArg some (by omega)

end Decimal

/-- A type whose values are written as texts, with a reader for them. -/
class Translator (α : Type) where
  putValue : α → String
  getValue : String → Option α
  getValue_putValue : ∀ a, getValue (putValue a) = some a

namespace Translator

instance : Translator String := ⟨id, some, fun _ => rfl⟩

instance : Translator Bool where
  putValue b := if b then "true" else "false"
  -- the reader tries a number first
  getValue s :=
    if s = "1" ∨ s = "true" then some true
    else if s = "0" ∨ s = "false" then some false else none
  getValue_putValue b := by cases b <;> decide

instance : Translator UInt64 where
  putValue n := String.ofList (Nat.toDigits 10 n.toNat)
  getValue s := (Decimal.read? s.toList).bind fun n =>
    if n < UInt64.size then some (UInt64.ofNat n) else none
  getValue_putValue n := by simp [n.toNat_lt_size]

instance : Translator UInt32 where
  putValue n := String.ofList (Nat.toDigits 10 n.toNat)
  getValue s := (Decimal.read? s.toList).bind fun n =>
    if n < UInt32.size then some (UInt32.ofNat n) else none
  getValue_putValue n := by simp [n.toNat_lt_size]

instance : Translator UInt16 where
  putValue n := String.ofList (Nat.toDigits 10 n.toNat)
  getValue s := (Decimal.read? s.toList).bind fun n =>
    if n < UInt16.size then some (UInt16.ofNat n) else none
  getValue_putValue n := by simp [n.toNat_lt_size]

instance : Translator Int32 where
  putValue i := String.ofList (Decimal.writeInt i.toInt)
  getValue s := (Decimal.readInt? s.toList).bind fun i =>
    if -2 ^ 31 ≤ i ∧ i < 2 ^ 31 then some (Int32.ofInt i) else none
  getValue_putValue i := by
    rw [String.toList_ofList, Decimal.readInt?_writeInt, Option.bind_some,
      if_pos ⟨i.le_toInt, i.toInt_lt⟩, Int32.ofInt_toInt]

end Translator

/-! ## Trees -/

/-- A text with named subtrees. -/
inductive PropertyTree where
  | node (data : String) (children : List (String × PropertyTree))

namespace PropertyTree

def data : PropertyTree → String
  | node d _ => d

def children : PropertyTree → List (String × PropertyTree)
  | node _ cs => cs

/-- A new tree. -/
def empty : PropertyTree := node "" []

/-- Why a value cannot be read: the key is missing, or its text is not a value. -/
inductive Error where
  | badPath (key : String)
  | badData (key : String)
  deriving DecidableEq

/-- The first subtree with a name. -/
def find (key : String) : List (String × PropertyTree) → Option PropertyTree
  | [] => none
  | (k, c) :: cs => if k = key then some c else find key cs

/-- The first subtree with a name is changed; a new one is changed if there is none. -/
def change (key : String) (f : PropertyTree → PropertyTree) :
    List (String × PropertyTree) → List (String × PropertyTree)
  | [] => [(key, f empty)]
  | (k, c) :: cs => if k = key then (k, f c) :: cs else (k, c) :: change key f cs

theorem find_change_self (key : String) (f : PropertyTree → PropertyTree)
    (cs : List (String × PropertyTree)) :
    find key (change key f cs) = some (f ((find key cs).getD empty)) := by
  induction cs with
  | nil => simp [change, find]
  | cons kc cs ih =>
    rw [change, find]
    split_ifs with hk
    · simp [find, hk]
    · rw [find, if_neg hk, ih]

theorem find_change_of_ne {key key' : String} (hne : key' ≠ key)
    (f : PropertyTree → PropertyTree) (cs : List (String × PropertyTree)) :
    find key' (change key f cs) = find key' cs := by
  induction cs with
  | nil => simp [change, find, hne.symm]
  | cons kc cs ih =>
    rw [change]
    split_ifs with hk
    · rw [find, find, if_neg (hk ▸ hne.symm), if_neg (hk ▸ hne.symm)]
    · rw [find, find, ih]

section Access

variable {α : Type} [Translator α] (t : PropertyTree) (key : String)

/-- The subtree under a key. -/
def child? : Option PropertyTree := find key t.children

/-- The subtree under a key is changed. -/
def update (f : PropertyTree → PropertyTree) : PropertyTree :=
  node t.data (change key f t.children)

/-- A value is written under a key. -/
def put (a : α) : PropertyTree :=
  t.update key fun c => node (Translator.putValue a) c.children

/-- A subtree is appended to the list under a key. -/
def addChild (item : String) (entry : PropertyTree) : PropertyTree :=
  t.update key fun c => node c.data (c.children ++ [(item, entry)])

/-- The value of a tree. -/
def getValue (name : String) : Except Error α :=
  match Translator.getValue t.data with
  | some a => .ok a
  | none => .error (.badData name)

/-- The value under a key. -/
def get : Except Error α :=
  match t.child? key with
  | some c => c.getValue key
  | none => .error (.badPath key)

/-- The entries of the list under a key. -/
def items : List (String × PropertyTree) := ((t.child? key).getD empty).children

/-- A tree that consists of one value. -/
def leaf (a : α) : PropertyTree := node (Translator.putValue a) []

end Access

/-! ## What is read after a write -/

variable {α : Type} [Translator α] {t : PropertyTree} {key key' : String}

@[simp] theorem child?_empty : empty.child? key = none := rfl

theorem child?_update_self (f : PropertyTree → PropertyTree) :
    (t.update key f).child? key = some (f ((t.child? key).getD empty)) :=
  find_change_self key f t.children

theorem child?_update_of_ne (hne : key' ≠ key) (f : PropertyTree → PropertyTree) :
    (t.update key f).child? key' = t.child? key' :=
  find_change_of_ne hne f t.children

/-- A written value leaves the other keys alone. -/
theorem child?_put_of_ne (hne : key' ≠ key) (a : α) :
    (t.put key a).child? key' = t.child? key' := child?_update_of_ne hne _

/-- A list that grows leaves the other keys alone. -/
theorem child?_addChild_of_ne (hne : key' ≠ key) (item : String) (entry : PropertyTree) :
    (t.addChild key item entry).child? key' = t.child? key' := child?_update_of_ne hne _

@[simp] theorem getValue_leaf (a : α) (name : String) : (leaf a).getValue name = .ok a := by
  simp [getValue, leaf, data, Translator.getValue_putValue]

/-- What is under a key decides what is read there. -/
theorem get_congr {t' : PropertyTree} (h : t'.child? key = t.child? key) :
    (t'.get key : Except Error α) = t.get key := by
  rw [get, get, h]

theorem items_congr {t' : PropertyTree} (h : t'.child? key = t.child? key) :
    t'.items key = t.items key := by
  rw [items, items, h]

/-- **A value that was written can be read.** -/
@[simp] theorem get_put_self (a : α) : (t.put key a).get key = .ok a := by
  rw [get, put, child?_update_self]
  simp [getValue, data, Translator.getValue_putValue]

theorem get_put_of_ne {β : Type} [Translator β] (hne : key' ≠ key) (b : β) :
    ((t.put key b).get key' : Except Error α) = t.get key' :=
  get_congr (child?_put_of_ne hne b)

theorem items_eq_nil (h : t.child? key = none) : t.items key = [] := by
  rw [items, h]
  rfl

theorem items_addChild_self (item : String) (entry : PropertyTree) :
    (t.addChild key item entry).items key = t.items key ++ [(item, entry)] := by
  rw [items, addChild, child?_update_self]
  rfl

/-! ## Lists of values -/

section Lists

variable {ι : Type}

/-- Subtrees are appended to the list under a key. -/
def addAll (t : PropertyTree) (key item : String) (entries : List PropertyTree) : PropertyTree :=
  entries.foldl (fun t entry => t.addChild key item entry) t

theorem child?_addAll_of_ne (hne : key' ≠ key) (item : String) (entries : List PropertyTree) :
    (t.addAll key item entries).child? key' = t.child? key' := by
  induction entries generalizing t with
  | nil => rfl
  | cons entry entries ih => exact ih.trans (child?_addChild_of_ne hne item entry)

theorem items_addAll (item : String) (entries : List PropertyTree) :
    (t.addAll key item entries).items key = t.items key ++ entries.map (Prod.mk item) := by
  induction entries generalizing t with
  | nil => simp [addAll]
  | cons entry entries ih =>
    have hrest := ih (t := t.addChild key item entry)
    rw [items_addChild_self] at hrest
    simpa [addAll] using hrest

/-- A loop that appends some entries for each element appends all of them. -/
theorem foldl_addAll (f : ι → List PropertyTree) (item : String) (xs : List ι) :
    xs.foldl (fun t x => t.addAll key item (f x)) t = t.addAll key item (xs.flatMap f) := by
  induction xs generalizing t with
  | nil => rfl
  | cons x xs ih => rw [List.foldl_cons, ih, List.flatMap_cons, addAll, addAll, addAll,
      List.foldl_append]

/-- The values of the entries of a list. -/
def getValues (name : String) (entries : List (String × PropertyTree)) : Except Error (List α) :=
  entries.mapM fun entry => entry.2.getValue name

/-- **A list of values that was written can be read.** -/
theorem getValues_leaves (name item : String) (as : List α) :
    getValues name ((as.map leaf).map (Prod.mk item)) = .ok as := by
  induction as with
  | nil => rfl
  | cons a as ih =>
    rw [List.map_cons, List.map_cons, getValues, List.mapM_cons]
    rw [getValues] at ih
    rw [ih, getValue_leaf]
    rfl

end Lists

/-! ## Tables of values -/

section Tables

variable {κ : Type} {V : κ → Type} [∀ k, Translator (V k)]

/-- The values of a table are written, each under the name of its key. -/
def putTable (t : PropertyTree) (name : κ → String) (value : (k : κ) → V k) (ks : List κ) :
    PropertyTree :=
  ks.foldl (fun t k => t.put (name k) (value k)) t

/-- A table leaves the other keys alone. -/
theorem child?_putTable_of_notMem (name : κ → String) (value : (k : κ) → V k) {ks : List κ}
    (hkey : key ∉ ks.map name) : (t.putTable name value ks).child? key = t.child? key := by
  induction ks generalizing t with
  | nil => rfl
  | cons k ks ih =>
    rw [List.map_cons, List.mem_cons, not_or] at hkey
    exact (ih hkey.2).trans (child?_put_of_ne hkey.1 (value k))

/-- **Each value of a table can be read**, if no two keys have the same name. -/
theorem get_putTable {name : κ → String} (value : (k : κ) → V k) {ks : List κ}
    (hnodup : (ks.map name).Nodup) {k : κ} (hk : k ∈ ks) :
    (t.putTable name value ks).get (name k) = .ok (value k) := by
  induction ks generalizing t with
  | nil => cases hk
  | cons k' ks ih =>
    rw [List.map_cons, List.nodup_cons] at hnodup
    obtain rfl | hk := List.mem_cons.mp hk
    · have hlast : ((t.put (name k) (value k)).putTable name value ks).child? (name k) =
          (t.put (name k) (value k)).child? (name k) :=
        child?_putTable_of_notMem name value hnodup.1
      exact (get_congr hlast).trans (get_put_self (value k))
    · exact ih hnodup.2 hk

end Tables

end PropertyTree

end Elbencho
