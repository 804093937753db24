import Mathlib.Order.Monotone.Basic
import ForexMarket.Lib.KeySet

/- Maps between collections ordered by a key. A map of the elements that goes with a
   strictly monotone map of the keys takes a collection to a collection, and every
   operation commutes with it. -/

/-- A map of elements with the map of their keys. -/
structure KeyMap {α β κ κ' : Type} [LinearOrder κ] [LinearOrder κ'] (key : α → κ)
    (key' : β → κ') where
  elem : α → β
  onKey : κ → κ'
  mono : StrictMono onKey
  key_elem : ∀ a, key' (elem a) = onKey (key a)

namespace KeySet

variable {α β κ κ' : Type} [LinearOrder κ] [LinearOrder κ'] {key : α → κ} {key' : β → κ'}

/-- The collection of the images. -/
def map (s : KeySet α key) (m : KeyMap key key') : KeySet β key' :=
  ⟨s.elems.map m.elem, by
    rw [List.pairwise_map]
    apply s.sorted.imp
    intro a b hab
    rw [m.key_elem, m.key_elem]
    exact m.mono hab⟩

variable {s : KeySet α key} {m : KeyMap key key'}

@[simp] theorem elems_map : (s.map m).elems = s.elems.map m.elem := rfl

theorem mem_map {b : β} : b ∈ s.map m ↔ ∃ a ∈ s, m.elem a = b := by
  simp [mem_def]

/-- Under the image of a key stands the image of what stands under the key. -/
theorem find?_map (k : κ) : (s.map m).find? (m.onKey k) = (s.find? k).map m.elem := by
  cases h : s.find? k with
  | none =>
    refine find?_eq_none.mpr fun b hb => ?_
    obtain ⟨a, ha, rfl⟩ := mem_map.mp hb
    rw [m.key_elem]
    exact fun e => find?_eq_none.mp h a ha (m.mono.injective e)
  | some a =>
    obtain ⟨ha, rfl⟩ := find?_eq_some.mp h
    exact find?_eq_some.mpr ⟨mem_map.mpr ⟨a, ha, rfl⟩, m.key_elem a⟩

theorem map_erase (k : κ) : (s.erase k).map m = (s.map m).erase (m.onKey k) := by
  apply ext_mem
  intro b
  rw [mem_erase, mem_map, mem_map]
  constructor
  · rintro ⟨a, ha, rfl⟩
    obtain ⟨ha, hk⟩ := mem_erase.mp ha
    refine ⟨⟨a, ha, rfl⟩, ?_⟩
    rw [m.key_elem]
    exact fun e => hk (m.mono.injective e)
  · rintro ⟨⟨a, ha, rfl⟩, hk⟩
    rw [m.key_elem] at hk
    exact ⟨a, mem_erase.mpr ⟨ha, fun e => hk (by rw [e])⟩, rfl⟩

/-- An element of a new key, and its image. -/
theorem map_insert {a : α} (ha : ∀ c ∈ s, key c ≠ key a) :
    (s.insert a).map m = (s.map m).insert (m.elem a) := by
  have hfresh : ∀ b ∈ s.map m, key' b ≠ key' (m.elem a) := by
    intro b hb
    obtain ⟨c, hc, rfl⟩ := mem_map.mp hb
    rw [m.key_elem, m.key_elem]
    exact fun e => ha c hc (m.mono.injective e)
  apply ext_mem
  intro b
  rw [mem_insert_of_fresh hfresh, mem_map, mem_map]
  constructor
  · rintro ⟨c, hc, rfl⟩
    rcases (mem_insert_of_fresh ha).mp hc with hc | rfl
    · exact .inl ⟨c, hc, rfl⟩
    · exact .inr rfl
  · intro hb
    rcases hb with ⟨c, hc, rfl⟩ | rfl
    · exact ⟨c, (mem_insert_of_fresh ha).mpr (.inl hc), rfl⟩
    · exact ⟨a, (mem_insert_of_fresh ha).mpr (.inr rfl), rfl⟩

theorem map_store (a : α) : (s.store a).map m = (s.map m).store (m.elem a) := by
  have helems : ((s.store a).map m).elems = ((s.map m).store (m.elem a)).elems := by
    simp only [elems_map, store, List.map_map]
    apply List.map_congr_left
    intro b _
    have hkey : key' (m.elem b) = key' (m.elem a) ↔ key b = key a := by
      rw [m.key_elem, m.key_elem]
      exact m.mono.injective.eq_iff
    by_cases hk : key b = key a
    · simp only [Function.comp_apply, if_pos hk, if_pos (hkey.mpr hk)]
    · simp only [Function.comp_apply, if_neg hk, if_neg (mt hkey.mp hk)]
  exact ext_mem fun b => by rw [mem_def, mem_def, helems]

/-- A map that fixes every element fixes the collection. -/
theorem map_of_fixed {m : KeyMap key key} (h : ∀ a ∈ s, m.elem a = a) : s.map m = s := by
  apply ext_mem
  intro b
  rw [mem_map]
  constructor
  · rintro ⟨a, ha, rfl⟩
    rw [h a ha]
    exact ha
  · exact fun hb => ⟨b, hb, h b hb⟩

end KeySet
