import FlashParams.Layout.Assembly
import Mathlib.Data.List.Induction
import Mathlib.Data.List.Pairwise

/-!
# The symbol table

The list of a table and its index are written one after the other, and every lookup takes the symbol
that stands at the position the index holds. The type of tables says that the index is the one of the
list. What callers see of that is `get?_eq_find?`: a lookup is a search of the list, and from here on
the index is not spoken of again.

A table gets its symbols by calls of `insert`, some of which it refuses. `firstCalls` says which ones
it takes without saying what a table is, and `Tabulates` what the table then answers, in terms of the
calls alone. What a single call does is `insert_cases`; that every run of calls ends in such a table
(`tabulates_insertAll`) goes by induction on the calls from the end, because whether a call is taken
depends on those before it.
-/

set_option autoImplicit false

namespace FlashParams

/-- With distinct keys an item is what a search for its key finds. The table and the records are both
searched by name, and this is what relates membership to a search. -/
theorem find?_of_nodup {α β : Type} [DecidableEq β] (key : α → β) {items : List α}
    (h : (items.map key).Nodup) {x : α} (hx : x ∈ items) :
    items.find? (fun y => key y = key x) = some x := by
  induction items with
  | nil => exact absurd hx List.not_mem_nil
  | cons y rest ih =>
    obtain ⟨hnew, hrest⟩ := List.nodup_cons.1 h
    rcases List.mem_cons.1 hx with rfl | hx
    · exact List.find?_cons_of_pos (decide_eq_true rfl)
    · have hne : key y ≠ key x := fun e => hnew (e ▸ List.mem_map_of_mem hx)
      rw [List.find?_cons_of_neg (by rwa [decide_eq_true_eq]), ih hrest hx]

theorem find?_name_eq_none_iff {symbols : List Symbol} {name : String} :
    symbols.find? (·.name = name) = none ↔ name ∉ symbols.map (·.name) := by
  simp [List.find?_eq_none]

namespace SymbolTable

variable {t : SymbolTable} {name : String} {s : Symbol}

/-! ## Looking a name up -/

/-- The index holds the positions of the names, no others and all of them. The table carries this in its
type, so no state of it has to be shown to have it. -/
theorem lookup_index_iff {i : Nat} :
    t.index.lookup name = some i ↔ (t.entries.map (·.name))[i]? = some name := by
  refine ⟨name_of_lookup, fun hi => ?_⟩
  cases hlookup : t.index.lookup name with
  | none =>
    have hne := List.lookup_eq_none_iff.1 hlookup _ (mem_index_iff.2 hi)
    simp at hne
  | some j =>
    have hj := name_of_lookup hlookup
    obtain ⟨hlt, -⟩ := List.getElem?_eq_some_iff.1 hi
    rw [(List.getElem?_inj hlt t.nodup).1 (hi.trans hj.symm)]

theorem mem_of_get? (h : t.get? name = some s) : s ∈ t.entries ∧ s.name = name := by
  obtain ⟨i, hi, hlookup, rfl⟩ := Option.pmap_eq_some_iff.1 h
  have hname := name_of_lookup hlookup
  rw [List.getElem?_map, List.getElem?_eq_getElem hi, Option.map_some, Option.some_inj] at hname
  exact ⟨List.get_mem _ _, hname⟩

/-- **A lookup through the index is a search of the list.** Once it is known, the index plays no part:
what is found is decided by the entries. -/
theorem get?_eq_find? (t : SymbolTable) (name : String) :
    t.get? name = t.entries.find? (·.name = name) := by
  cases hget : t.get? name with
  | none =>
    exact (find?_name_eq_none_iff.2 (name_not_mem_of_get?_eq_none hget)).symm
  | some s =>
    obtain ⟨hmem, rfl⟩ := mem_of_get? hget
    exact (find?_of_nodup (·.name) t.nodup hmem).symm

/-! ## The symbols of a block -/

theorem perm_inBlock (t : SymbolTable) (block : String) :
    (t.inBlock block).Perm (t.entries.filter (·.block = block)) :=
  List.mergeSort_perm _ _

theorem mem_inBlock {block : String} :
    s ∈ t.inBlock block ↔ s ∈ t.entries ∧ s.block = block := by
  rw [(t.perm_inBlock block).mem_iff, List.mem_filter, decide_eq_true_eq]

theorem address_le_trans (a b c : Symbol) (hab : decide (a.address ≤ b.address) = true)
    (hbc : decide (b.address ≤ c.address) = true) : decide (a.address ≤ c.address) = true :=
  decide_eq_true (UInt32.le_trans (of_decide_eq_true hab) (of_decide_eq_true hbc))

theorem address_le_total (a b : Symbol) :
    (decide (a.address ≤ b.address) || decide (b.address ≤ a.address)) = true := by
  simp only [Bool.or_eq_true, decide_eq_true_eq]
  exact UInt32.le_total a.address b.address

theorem ascending_inBlock (t : SymbolTable) (block : String) :
    (t.inBlock block).Pairwise fun s s' => s.address ≤ s'.address :=
  (List.pairwise_mergeSort address_le_trans address_le_total _).imp of_decide_eq_true

/-- Symbols of one address stay in the order of the list. Being in order by address leaves that open, and
in a finished layout elements without bytes do share one. -/
theorem filter_inBlock (t : SymbolTable) (block : String) (address : UInt32) :
    (t.inBlock block).filter (·.address = address) =
      (t.entries.filter (·.block = block)).filter (·.address = address) := by
  let own := (t.entries.filter (·.block = block)).filter (·.address = address)
  have hown : ∀ s ∈ own, s.address = address := fun s hs =>
    of_decide_eq_true (List.mem_filter.1 hs).2
  -- symbols of one address are in order as they stand, and sorting keeps what is in order
  have hpairwise : own.Pairwise fun s s' => decide (s.address ≤ s'.address) = true :=
    List.pairwise_of_forall_mem_list fun s hs s' hs' => by
      rw [hown s hs, hown s' hs', decide_eq_true_eq]
      exact UInt32.le_refl address
  have hkept : own.Sublist (t.inBlock block) :=
    List.sublist_mergeSort address_le_trans address_le_total hpairwise List.filter_sublist
  have hsublist : own.Sublist ((t.inBlock block).filter (·.address = address)) := by
    have hfilter := hkept.filter fun s => decide (s.address = address)
    rwa [List.filter_eq_self.2 fun s hs => decide_eq_true (hown s hs)] at hfilter
  exact (hsublist.eq_of_length ((t.perm_inBlock block).filter _).length_eq.symm).symm

/-! ## One call -/

theorem insert_of_taken {older : Symbol} (h : t.get? s.name = some older) :
    t.insert s = .error older := by
  unfold insert
  split
  · rename_i found hfound
    rw [h] at hfound
    cases hfound
    rfl
  · rename_i hnone
    rw [h] at hnone
    cases hnone

theorem insert_of_new (h : t.get? s.name = none) :
    ∃ t', t.insert s = .ok t' ∧ t'.entries = t.entries ++ [s] := by
  unfold insert
  split
  · rename_i older hold
    rw [h] at hold
    cases hold
  · exact ⟨_, rfl, rfl⟩

/-- The last of a run of calls. A run is a fold from the left, so the induction over it adds calls at the
end. -/
theorem insertAll_concat (t : SymbolTable) (calls : List Symbol) (s : Symbol) :
    t.insertAll (calls ++ [s]) =
      match (t.insertAll calls).insert s with
      | .ok t' => t'
      | .error _ => t.insertAll calls := by
  unfold insertAll
  rw [List.foldl_append]
  rfl

/-! ## A run of calls -/

/-- The calls that are the first of their name, in order. It is stated with positions rather than as a
recursion, so that it can be read without knowing how the table goes through the calls. -/
def firstCalls (calls : List Symbol) : List Symbol :=
  (calls.zipIdx.filter fun call => call.1.name ∉ (calls.take call.2).map (·.name)).map (·.1)

theorem firstCalls_concat (calls : List Symbol) (s : Symbol) :
    firstCalls (calls ++ [s]) =
      firstCalls calls ++ if s.name ∈ calls.map (·.name) then [] else [s] := by
  have hbefore : ∀ call ∈ calls.zipIdx,
      decide (call.1.name ∉ ((calls ++ [s]).take call.2).map (·.name)) =
        decide (call.1.name ∉ (calls.take call.2).map (·.name)) := fun call hcall => by
    obtain ⟨-, hlt, -⟩ := List.mem_zipIdx hcall
    rw [List.take_append_of_le_length (by omega)]
  unfold firstCalls
  rw [List.zipIdx_append, List.filter_append, List.map_append, List.filter_congr hbefore,
    Nat.zero_add, List.zipIdx_singleton, List.filter_cons, List.take_left]
  by_cases hknown : s.name ∈ calls.map (·.name)
  · simp [hknown]
  · simp [hknown]

theorem find?_firstCalls (calls : List Symbol) (name : String) :
    (firstCalls calls).find? (·.name = name) = calls.find? (·.name = name) := by
  induction calls using List.reverseRecOn with
  | nil => rfl
  | append_singleton calls s ih =>
    rw [firstCalls_concat, List.find?_append, List.find?_append, ih]
    split
    · rename_i hknown
      cases hfirst : calls.find? (·.name = name) with
      | some first => rfl
      | none =>
        have hne : s.name ≠ name := fun e => find?_name_eq_none_iff.1 hfirst (e ▸ hknown)
        rw [List.find?_cons_of_neg (by rwa [decide_eq_true_eq])]
    · rfl

/-- **One call**, of a table that lists the first call of every name. With a name there has been it is
refused for that first call, and is not one itself; otherwise the table takes it and lists it last. -/
theorem insert_cases {calls : List Symbol} (h : t.entries = firstCalls calls) (s : Symbol) :
    (∃ first, calls.find? (·.name = s.name) = some first ∧ t.insert s = .error first ∧
        firstCalls (calls ++ [s]) = firstCalls calls) ∨
      (s.name ∉ calls.map (·.name) ∧ ∃ t', t.insert s = .ok t' ∧ t'.entries = t.entries ++ [s] ∧
        firstCalls (calls ++ [s]) = firstCalls calls ++ [s]) := by
  have hget : t.get? s.name = calls.find? (·.name = s.name) := by
    rw [get?_eq_find?, h, find?_firstCalls]
  rw [firstCalls_concat]
  cases hfirst : calls.find? (·.name = s.name) with
  | some first =>
    have hknown : s.name ∈ calls.map (·.name) := by
      by_contra hnew
      cases (find?_name_eq_none_iff.2 hnew).symm.trans hfirst
    left
    exact ⟨first, rfl, insert_of_taken (hget.trans hfirst), by rw [if_pos hknown, List.append_nil]⟩
  | none =>
    have hnew := find?_name_eq_none_iff.1 hfirst
    obtain ⟨t', hinsert, hentries⟩ := insert_of_new (hget.trans hfirst)
    right
    exact ⟨hnew, t', hinsert, hentries, by rw [if_neg hnew]⟩

/-- **A table lists the first call of every name.** Later calls of a name are refused and leave the table
as it was, index included. -/
theorem entries_insertAll_empty (calls : List Symbol) :
    (empty.insertAll calls).entries = firstCalls calls := by
  induction calls using List.reverseRecOn with
  | nil => rfl
  | append_singleton calls s ih =>
    rw [insertAll_concat]
    rcases insert_cases ih s with ⟨first, -, hinsert, hcalls⟩ | ⟨-, t', hinsert, hentries, hcalls⟩
    · rw [hinsert, hcalls]
      exact ih
    · rw [hinsert, hcalls, ← ih]
      exact hentries

/-- What a table answers that has had the calls, all of it in terms of the calls. Nothing here speaks of
the index but the member that says what is in it. -/
structure Tabulates (calls : List Symbol) (t : SymbolTable) : Prop where
  listed : t.entries = firstCalls calls
  /-- The index holds the positions of the names in the list, no others and all of them. -/
  positions : ∀ name i,
    t.index.lookup name = some i ↔ (t.entries.map (·.name))[i]? = some name
  found : ∀ name, t.get? name = calls.find? (·.name = name)
  /-- A name there has been is refused for the symbol first entered, and the call leaves no trace. -/
  refused : ∀ s first, calls.find? (·.name = s.name) = some first →
    t.insert s = .error first ∧ empty.insertAll (calls ++ [s]) = t
  taken : ∀ s, s.name ∉ calls.map (·.name) →
    t.insert s = .ok (empty.insertAll (calls ++ [s])) ∧
      (empty.insertAll (calls ++ [s])).entries = t.entries ++ [s]
  /-- The symbols of a block are those of the list, ascending, and in its order at each address. -/
  blocks : ∀ block, (t.inBlock block).Perm (t.entries.filter (·.block = block)) ∧
    (t.inBlock block).Pairwise (fun s s' => s.address ≤ s'.address) ∧
    ∀ address, (t.inBlock block).filter (·.address = address) =
      (t.entries.filter (·.block = block)).filter (·.address = address)

/-- **Whatever calls a table has had, its list and its index tell the same.** The calls are arbitrary,
names that clash included, as they are when tables are filled by hand. -/
theorem tabulates_insertAll (calls : List Symbol) : Tabulates calls (empty.insertAll calls) := by
  have hlisted := entries_insertAll_empty calls
  refine ⟨hlisted, fun _ _ => lookup_index_iff, fun name => ?_, fun s first hfirst => ?_,
    fun s hnew => ?_,
    fun block => ⟨perm_inBlock _ block, ascending_inBlock _ block, filter_inBlock _ block⟩⟩
  · rw [get?_eq_find?, hlisted, find?_firstCalls]
  · rcases insert_cases hlisted s with ⟨first', hfirst', hinsert, -⟩ | ⟨hnew, -⟩
    · cases hfirst.symm.trans hfirst'
      exact ⟨hinsert, by rw [insertAll_concat, hinsert]⟩
    · cases (find?_name_eq_none_iff.2 hnew).symm.trans hfirst
  · rcases insert_cases hlisted s with ⟨first, hfirst, -⟩ | ⟨-, t', hinsert, hentries, -⟩
    · cases (find?_name_eq_none_iff.2 hnew).symm.trans hfirst
    · have hrun : empty.insertAll (calls ++ [s]) = t' := by
        rw [insertAll_concat, hinsert]
      exact ⟨by rw [hrun, hinsert], by rw [hrun, hentries]⟩

end SymbolTable

end FlashParams
