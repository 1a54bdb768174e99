/-
FalconDraw.Index.AddrPageTheorems — a page of an address history.

`dbFetchAddrIndexEntries` reads as many levels as it takes and then counts in 32
bits.
-/
import FalconDraw.Index.AddrLevelsTheorems

namespace FalconDraw.Index

open Lib Lib.Levels Wire

variable {α : Type} {ls : Levels α} {n : Nat}
variable {reverse : Bool} {bucket : Levels Bytes} {es : List Bytes} {requested skip : UInt32}

/-! ## Loading levels -/

theorem loadLevels_ok (hf : Filled level0MaxEntries ls n) (wanted : Option Nat) :
    ∀ (fuel level : Nat), level ≤ n → n < level + fuel →
      ∃ m ≤ n, loadLevels ls wanted fuel level (ls.span 0 level) = .ok (ls.span 0 m) ∧
        (m = n ∨ ∃ w, wanted = some w ∧ w ≤ (ls.span 0 m).length) := by
  intro fuel
  induction fuel with
  | zero =>
    intro level hle hn
    omega
  | succ fuel ih =>
    intro level hle hn
    rw [loadLevels]
    split
    · rename_i henough
      obtain ⟨w, hw, hlen⟩ := (Option.any_eq_true _ _).mp henough
      exact ⟨level, hle, rfl, .inr ⟨w, hw, of_decide_eq_true hlen⟩⟩
    · cases hget : ls.get level with
      | none =>
        have hend := (hf.data_eq_nil_iff (by decide)).mp (data_of_none hget)
        exact ⟨level, hle, rfl, .inl (Nat.le_antisymm hle hend)⟩
      | some levelData =>
        have hlt : level < n := by
          by_contra hge
          rw [hf.unused level (by omega)] at hget
          cases hget
        have hspan : levelData ++ ls.span 0 level = ls.span 0 (level + 1) := by
          rw [span, Nat.zero_add, data, hget]
          rfl
        dsimp only
        rw [hspan]
        exact ih (level + 1) hlt (by omega)

/-! ## One entry -/

theorem deserializeAddrIndexEntry_append (key : AddrKey) {entry : Bytes} (rest : Bytes)
    (f : Bytes → Except IndexError Hash) (h : entry.length = txEntrySize) :
    deserializeAddrIndexEntry key (entry ++ rest) f = deserializeAddrIndexEntry key entry f := by
  have hsize : txEntrySize = 12 := rfl
  have h₁ : ¬ (entry ++ rest).length < txEntrySize := by
    rw [List.length_append]
    omega
  have h₂ : ¬ entry.length < txEntrySize := by omega
  simp only [deserializeAddrIndexEntry, rejectIf, if_neg h₁, if_neg h₂]
  rw [slice_append_of_le (by omega), slice_append_of_le (by omega), slice_append_of_le (by omega)]

theorem drop_flatten {size : Nat} : ∀ {es : List Bytes} {j : Nat}, (∀ e ∈ es, e.length = size) →
    es.flatten.drop (j * size) = (es.drop j).flatten
  | [], j, _ => by simp
  | e :: es, 0, _ => by simp
  | e :: es, j + 1, h => by
      have hrest := drop_flatten (j := j) fun e' he' => h e' (List.mem_cons_of_mem e he')
      have hsplit : (j + 1) * size = e.length + j * size := by
        rw [h e List.mem_cons_self]
        ring
      rw [List.flatten_cons, hsplit, List.drop_length_add_append, hrest, List.drop_succ_cons]

theorem deserialize_at (key : AddrKey) (f : Bytes → Except IndexError Hash)
    (hsize : ∀ e ∈ es, e.length = txEntrySize) {j : Nat} (hj : j < es.length) :
    deserializeAddrIndexEntry key (es.flatten.drop (j * txEntrySize)) f =
      deserializeAddrIndexEntry key es[j] f := by
  rw [drop_flatten hsize, List.drop_eq_getElem_cons hj, List.flatten_cons,
    deserializeAddrIndexEntry_append key _ f (hsize _ (List.getElem_mem hj))]

/-- The most entries whose byte offsets are all `uint32`s. -/
def offsetEntries : Nat := (2 ^ 32 - 1) / txEntrySize + 1

/-! ## Pages -/

/-- The `requested` entries after the first `skip`, from the oldest or from the
newest on. -/
def page (es : List α) (skip requested : Nat) (reverse : Bool) : List α :=
  ((if reverse then es.reverse else es).drop skip).take requested

theorem page_length (es : List α) (skip requested : Nat) (reverse : Bool) :
    (page es skip requested reverse).length = min requested (es.length - skip) := by
  rw [page, List.length_take, List.length_drop]
  cases reverse <;> simp

theorem page_getElem {es : List α} {skip requested i : Nat}
    (h : i < (page es skip requested reverse).length) (hi : skip + i < es.length) :
    (page es skip requested reverse)[i] =
      if reverse then es[es.length - 1 - (skip + i)] else es[skip + i] := by
  grind [page]

theorem mapM_range {ε β γ : Type} (f : γ → Except ε β) :
    ∀ (es : List γ) (g : Nat → Except ε β), (∀ i (h : i < es.length), g i = f es[i]) →
      (List.range es.length).mapM g = es.mapM f := by
  intro es
  induction es with
  | nil => exact fun _ _ => rfl
  | cons e es ih =>
    intro g hg
    have hrest : (List.range es.length).mapM (g ∘ Nat.succ) = es.mapM f :=
      ih (g ∘ Nat.succ) fun i hi => hg (i + 1) (Nat.succ_lt_succ hi)
    have hhead : g 0 = f e := hg 0 (Nat.succ_pos _)
    rw [List.length_cons, List.range_succ_eq_map, List.mapM_cons, List.mapM_cons, List.mapM_map,
      hrest, hhead]

theorem load_page (key : AddrKey) (f : Bytes → Except IndexError Hash)
    (hsize : ∀ e ∈ es, e.length = txEntrySize) (hlen : es.length ≤ offsetEntries)
    (reverse : Bool) (hskip : skip.toNat < es.length) :
    ((List.range (min (UInt32.ofNat es.length - skip) requested).toNat).mapM fun i =>
      deserializeAddrIndexEntry key (es.flatten.drop ((if reverse then
        UInt32.ofNat es.length - skip - UInt32.ofNat i - 1 else skip + UInt32.ofNat i) *
          UInt32.ofNat txEntrySize).toNat) f) =
      (page es skip.toNat requested.toNat reverse).mapM
        fun entry => deserializeAddrIndexEntry key entry f := by
  have hbytes : es.length ≤ 357913942 := hlen
  have hcount : (UInt32.ofNat es.length).toNat = es.length :=
    UInt32.toNat_ofNat_of_lt' (show es.length < 2 ^ 32 by omega)
  have hleft : (UInt32.ofNat es.length - skip).toNat = es.length - skip.toNat := by
    rw [UInt32.toNat_sub_of_le _ _ (UInt32.le_iff_toNat_le.mpr (by omega)), hcount]
  have hload : (min (UInt32.ofNat es.length - skip) requested).toNat =
      (page es skip.toNat requested.toNat reverse).length := by
    rw [page_length, ← hleft]
    show (if _ then _ else _ : UInt32).toNat = _
    split
    · rename_i h
      rw [UInt32.le_iff_toNat_le] at h
      omega
    · rename_i h
      rw [UInt32.le_iff_toNat_le] at h
      omega
  rw [hload]
  refine mapM_range _ _ _ fun i hi => ?_
  have hi' := hi
  rw [page_length] at hi'
  have hiNat : (UInt32.ofNat i).toNat = i :=
    UInt32.toNat_ofNat_of_lt' (show i < 2 ^ 32 by omega)
  have hoffset : ∀ j : UInt32, j.toNat < es.length →
      (j * UInt32.ofNat txEntrySize).toNat = j.toNat * txEntrySize := by
    intro j hj
    rw [UInt32.toNat_mul]
    exact Nat.mod_eq_of_lt (by
      show j.toNat * 12 < 2 ^ 32
      omega)
  rw [page_getElem hi (by omega)]
  cases reverse with
  | false =>
    have hj : (skip + UInt32.ofNat i).toNat = skip.toNat + i := by
      rw [UInt32.toNat_add, hiNat]
      exact Nat.mod_eq_of_lt (by omega)
    simp only [Bool.false_eq_true, if_false]
    rw [hoffset _ (by omega), hj]
    exact deserialize_at key f hsize (by omega)
  | true =>
    have h₁ : (UInt32.ofNat es.length - skip - UInt32.ofNat i).toNat =
        es.length - skip.toNat - i := by
      rw [UInt32.toNat_sub_of_le _ _ (UInt32.le_iff_toNat_le.mpr (by omega)), hleft, hiNat]
    have hj : (UInt32.ofNat es.length - skip - UInt32.ofNat i - 1).toNat =
        es.length - 1 - (skip.toNat + i) := by
      have hone : (1 : UInt32).toNat = 1 := rfl
      rw [UInt32.toNat_sub_of_le _ _ (UInt32.le_iff_toNat_le.mpr (by omega)), h₁, hone]
      omega
    simp only [if_true]
    rw [hoffset _ (by omega), hj]
    exact deserialize_at key f hsize (by omega)

theorem page_suffix {es front loaded : List α} (hes : es = front ++ loaded) {skip requested : Nat}
    (h : front = [] ∨ skip + requested ≤ loaded.length) :
    page es skip requested true = page loaded skip requested true := by
  grind [page]

theorem fetch_of_loaded (key : AddrKey) {front loaded : List Bytes}
    (f : Bytes → Except IndexError Hash)
    (hload : loadLevels bucket (if reverse then some (skip + requested).toNat else none)
      (numLevels + 1) 0 [] = .ok loaded) (hes : es = front ++ loaded)
    (hpart : front = [] ∨ (reverse = true ∧ skip.toNat + requested.toNat ≤ loaded.length))
    (hsize : ∀ e ∈ es, e.length = txEntrySize) (hlen : es.length ≤ offsetEntries) :
    dbFetchAddrIndexEntries key bucket skip requested reverse f = (do
      let results ← (page es skip.toNat requested.toNat reverse).mapM
        fun entry => deserializeAddrIndexEntry key entry f
      return (results, UInt32.ofNat (min skip.toNat es.length))) := by
  have hbytes : es.length ≤ 357913942 := hlen
  have htotal : es.length = front.length + loaded.length := by rw [hes, List.length_append]
  have hfront : front = [] → front.length = 0 := fun h => by rw [h]; rfl
  have hcount : (UInt32.ofNat loaded.length).toNat = loaded.length :=
    UInt32.toNat_ofNat_of_lt' (show loaded.length < 2 ^ 32 by omega)
  have hpage : page es skip.toNat requested.toNat reverse =
      page loaded skip.toNat requested.toNat reverse := by
    rcases hpart with rfl | ⟨rfl, hle⟩
    · rw [hes, List.nil_append]
    · exact page_suffix hes (.inr hle)
  have hempty : ∀ k : UInt32, min requested.toNat (es.length - skip.toNat) = 0 →
      k.toNat = min skip.toNat es.length →
      (Except.ok ([], k) : Except IndexError (List BlockRegion × UInt32)) = (do
        let results ← (page es skip.toNat requested.toNat reverse).mapM
          fun entry => deserializeAddrIndexEntry key entry f
        return (results, UInt32.ofNat (min skip.toNat es.length))) := by
    intro k hzero hk
    have hnil : page es skip.toNat requested.toNat reverse = [] :=
      List.length_eq_zero_iff.mp ((page_length es _ _ _).trans hzero)
    rw [hnil, ← hk, UInt32.ofNat_toNat]
    rfl
  rw [dbFetchAddrIndexEntries]
  dsimp only
  rw [hload]
  show (if UInt32.ofNat loaded.length ≤ skip then _ else _) = _
  by_cases hall : loaded.length ≤ skip.toNat
  · rw [if_pos (UInt32.le_iff_toNat_le.mpr (by omega))]
    rcases hpart with hnil | ⟨-, hle⟩
    · have := hfront hnil
      exact hempty _ (by omega) (by omega)
    · exact hempty _ (by omega) (by omega)
  · rw [if_neg fun h => hall (by have := UInt32.le_iff_toNat_le.mp h; omega)]
    by_cases hnone : requested = 0
    · subst hnone
      rw [if_pos rfl]
      have hzero : (0 : UInt32).toNat = 0 := rfl
      exact hempty skip (by omega) (by omega)
    · have hmin : min skip.toNat es.length = skip.toNat := by omega
      have hsize' : ∀ e ∈ loaded, e.length = txEntrySize := fun e he =>
        hsize e (by rw [hes]; exact List.mem_append_right front he)
      rw [if_neg hnone, hpage, hmin, UInt32.ofNat_toNat,
        ← load_page key f hsize' (by show loaded.length ≤ 357913942; omega) reverse (by omega)]

/-- What is loaded is the newer part of the entries: all of them, or as many as it takes. -/
theorem exists_loaded (h : Holds bucket es)
    (hlen : es.length ≤ offsetEntries) (skip requested : UInt32) (reverse : Bool) :
    ∃ front loaded, loadLevels bucket (if reverse then some (skip + requested).toNat else none)
        (numLevels + 1) 0 [] = .ok loaded ∧ es = front ++ loaded ∧
      (front = [] ∨ (reverse = true ∧ (skip + requested).toNat ≤ loaded.length)) := by
  obtain ⟨n, hf, rfl⟩ := h
  have hbytes : (bucket.span 0 n).length ≤ 357913942 := hlen
  have hn := levels_le hf (by omega)
  obtain ⟨m, hmn, hload, henough⟩ := loadLevels_ok hf
    (if reverse then some (skip + requested).toNat else none) (numLevels + 1) 0 (Nat.zero_le n)
    (by rw [numLevels]; omega)
  obtain ⟨d, rfl⟩ : ∃ d, n = m + d := ⟨n - m, by omega⟩
  refine ⟨bucket.span m d, _, hload, by rw [span_add, Nat.zero_add], ?_⟩
  rcases henough with hall | ⟨w, hw, hle⟩
  · obtain rfl : d = 0 := by omega
    exact .inl rfl
  · cases reverse with
    | false => cases hw
    | true => exact .inr ⟨rfl, Option.some.inj hw ▸ hle⟩

/-- All entries are loaded, or at least as many as the page reaches back. -/
def LoadsEnough (bucket : Levels Bytes) (es : List Bytes) (skip requested : UInt32)
    (reverse : Bool) : Prop :=
  reverse = true → skip.toNat + requested.toNat < 2 ^ 32 ∨
    loadLevels bucket (some (skip + requested).toNat) (numLevels + 1) 0 [] = .ok es

theorem dbFetchAddrIndexEntries_eq (key : AddrKey)
    (h : Holds bucket es) (hsize : ∀ e ∈ es, e.length = txEntrySize)
    (hlen : es.length ≤ offsetEntries)
    (henough : LoadsEnough bucket es skip requested reverse) (f : Bytes → Except IndexError Hash) :
    dbFetchAddrIndexEntries key bucket skip requested reverse f = (do
      let results ← (page es skip.toNat requested.toNat reverse).mapM
        fun entry => deserializeAddrIndexEntry key entry f
      return (results, UInt32.ofNat (min skip.toNat es.length))) := by
  obtain ⟨front, loaded, hload, hes, hpart⟩ := exists_loaded h hlen skip requested reverse
  refine fetch_of_loaded key f hload hes ?_ hsize hlen
  cases reverse with
  | false => exact .inl (hpart.resolve_right (by simp))
  | true =>
    rcases henough rfl with hwrap | hall
    · refine hpart.imp_right fun hpart => ⟨rfl, ?_⟩
      rw [← Nat.mod_eq_of_lt hwrap, ← UInt32.toNat_add]
      exact hpart.2
    · obtain rfl := Except.ok.inj (hall.symm.trans hload)
      exact .inl (by simpa using hes)

theorem mem_of_mem_page {es : List α} {skip requested : Nat} {e : α}
    (h : e ∈ page es skip requested reverse) : e ∈ es := by
  have hmem := List.mem_of_mem_drop (List.mem_of_mem_take h)
  cases reverse <;> simpa using hmem

theorem page_answer (key : AddrKey) (hsize : ∀ e ∈ es, e.length = txEntrySize)
    (skip requested : Nat) (reverse : Bool) :
    ∃ rs : List BlockRegion, rs.length = min requested (es.length - skip) ∧
      (page es skip requested reverse).mapM (fun entry =>
        deserializeAddrIndexEntry key entry fun _ => .ok 0) = .ok rs := by
  refine ⟨_, (List.length_map _).trans (page_length es skip requested reverse),
    mapM_eq_ok (g := fun e => ⟨0, leNat (slice e 4 8), leNat (slice e 8 12)⟩) fun e he => ?_⟩
  have hlen := hsize e (mem_of_mem_page he)
  rw [deserializeAddrIndexEntry, rejectIf, if_neg (by omega)]
  rfl

end FalconDraw.Index
