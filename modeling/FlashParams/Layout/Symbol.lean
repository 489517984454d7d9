import FlashParams.Declaration.Basic

/-!
# Symbols

A symbol names a span of the image: the header of a block or one of its fields. The table keeps
symbols in the order in which they were entered, and a name is entered once: `insert` leaves the
table alone and hands back the older symbol when the name is taken.

A name is looked up in an index from names to positions, and what stands at the position is taken for
the symbol of the name. The index and the list are two things, written one after the other; that they
agree, and that no name occurs twice, is part of the type.
-/

set_option autoImplicit false

namespace FlashParams

inductive SymbolKind where
  | header
  | parameter (type : StoredType)
  | checksum (type : Scalar)
  deriving DecidableEq, Repr

def SymbolKind.size : SymbolKind → Nat
  | header => Header.size
  | parameter type => type.size
  | checksum type => type.size

/-- A named span of the image: what is left of a field or a header for those who only see the layout. -/
structure Symbol where
  name : String
  container : String
  block : String
  /-- The name of the field; headers have none. -/
  field : Option String
  address : UInt32
  size : UInt32
  kind : SymbolKind
  byteOrder : ByteOrder
  comment : Option String
  deriving DecidableEq, Repr

def Symbol.stop (s : Symbol) : Nat :=
  s.address.toNat + s.size.toNat

def fieldSymbolName (block field : String) : String :=
  block ++ "_" ++ field

/-- The name of the symbol of a block's header. A field may be called `blkhdr`, too; then the two clash
and the block fails. -/
def headerSymbolName (block : String) : String :=
  fieldSymbolName block "blkhdr"

/-- Symbols in the order they were entered, no two of one name, with an index of their positions. Both
invariants are part of the type, so a table cannot have an entry that a search by name does not find. -/
structure SymbolTable where
  entries : List Symbol
  /-- The position of every name, the newest in front. -/
  index : List (String × Nat)
  nodup : (entries.map (·.name)).Nodup
  indexed : index = (entries.map (·.name)).zipIdx.reverse

namespace SymbolTable

def empty : SymbolTable :=
  ⟨[], [], List.nodup_nil, rfl⟩

instance : Inhabited SymbolTable := ⟨empty⟩

theorem mem_index_iff {t : SymbolTable} {name : String} {i : Nat} :
    (name, i) ∈ t.index ↔ (t.entries.map (·.name))[i]? = some name := by
  rw [t.indexed, List.mem_reverse, List.mk_mem_zipIdx_iff_getElem?]

theorem name_of_lookup {t : SymbolTable} {name : String} {i : Nat}
    (h : t.index.lookup name = some i) : (t.entries.map (·.name))[i]? = some name := by
  obtain ⟨front, back, hindex, -⟩ := List.lookup_eq_some_iff.1 h
  rw [← mem_index_iff, hindex]
  exact List.mem_append_right _ List.mem_cons_self

/-- There is a symbol at every position the index holds. This is what lets `get?` take the entry there
without a case for its absence. -/
theorem lt_of_lookup {t : SymbolTable} {name : String} {i : Nat}
    (h : t.index.lookup name = some i) : i < t.entries.length := by
  obtain ⟨hlt, -⟩ := List.getElem?_eq_some_iff.1 (name_of_lookup h)
  rwa [List.length_map] at hlt

/-- The symbol of a name, by way of the index: the position comes from the index and the symbol from the
list. That this is a search of the list by name is a consequence of how the two agree. -/
def get? (t : SymbolTable) (name : String) : Option Symbol :=
  (t.index.lookup name).pmap (fun i hi => t.entries.get ⟨i, hi⟩) fun _ => lt_of_lookup

theorem name_not_mem_of_get?_eq_none {t : SymbolTable} {name : String} (h : t.get? name = none) :
    name ∉ t.entries.map (·.name) := by
  rw [get?, Option.pmap_eq_none_iff, List.lookup_eq_none_iff] at h
  intro hmem
  obtain ⟨i, hi⟩ := List.mem_iff_getElem?.1 hmem
  simpa using h (name, i) (mem_index_iff.2 hi)

/-- The table with one more symbol, or the symbol that has its name already. The older one is handed back
because its address is what the fault shows. -/
def insert (t : SymbolTable) (s : Symbol) : Except Symbol SymbolTable :=
  match h : t.get? s.name with
  | some older => .error older
  | none =>
    .ok
      { entries := t.entries ++ [s]
        index := (s.name, t.entries.length) :: t.index
        nodup := by
          rw [List.map_append, List.nodup_append]
          refine ⟨t.nodup, by simp, fun a ha b hb => ?_⟩
          simp only [List.map_cons, List.map_nil, List.mem_singleton] at hb
          subst hb
          exact fun hab => name_not_mem_of_get?_eq_none h (hab ▸ ha)
        indexed := by
          rw [List.map_append, List.zipIdx_append, List.reverse_append, ← t.indexed,
            List.length_map, Nat.zero_add]
          rfl }

/-- The symbols of a block in order of their addresses. The sort is stable, so a header without a field
in front of it stays where it was entered, even if a field shares its address. -/
def inBlock (t : SymbolTable) (block : String) : List Symbol :=
  (t.entries.filter (·.block = block)).mergeSort fun a b => a.address ≤ b.address

def size (t : SymbolTable) : Nat :=
  t.entries.length

end SymbolTable

end FlashParams
