import Mathlib

/-!
# Patricia trees

Binary tries over keys that are read bit by bit. A branch names the first bit in which its
keys differ, so a set of keys has exactly one tree.
-/
namespace Naome

/-- Keys read from their most significant bit on; `diff` is the first bit that separates two
different keys, and the order is the lexicographic one. -/
class BitKey (K : Type) [LinearOrder K] where
  width : ℕ
  bit : K → ℕ → Bool
  diff : K → K → ℕ
  diff_lt_width : ∀ {a b : K}, a ≠ b → diff a b < width
  bit_of_lt_diff : ∀ {a b : K} {i : ℕ}, a ≠ b → i < diff a b → bit a i = bit b i
  bit_diff : ∀ {a b : K}, a ≠ b → bit a (diff a b) ≠ bit b (diff a b)
  lt_iff : ∀ {a b : K}, a < b ↔ a ≠ b ∧ bit a (diff a b) = false

namespace BitKey

variable {K : Type} [LinearOrder K] [BitKey K] {a b c : K} {i : ℕ}

/-- Two keys agree in every bit before `i`. -/
def AgreeBelow (i : ℕ) (a b : K) : Prop := ∀ j < i, bit a j = bit b j

theorem AgreeBelow.refl (i : ℕ) (a : K) : AgreeBelow i a a := fun _ _ => rfl

theorem AgreeBelow.symm (h : AgreeBelow i a b) : AgreeBelow i b a := fun j hj => (h j hj).symm

theorem AgreeBelow.trans (h : AgreeBelow i a b) (h' : AgreeBelow i b c) : AgreeBelow i a c :=
  fun j hj => (h j hj).trans (h' j hj)

theorem AgreeBelow.mono {j : ℕ} (h : AgreeBelow i a b) (hj : j ≤ i) : AgreeBelow j a b :=
  fun k hk => h k (lt_of_lt_of_le hk hj)

theorem agreeBelow_diff (h : a ≠ b) : AgreeBelow (diff a b) a b := fun _ hj => bit_of_lt_diff h hj

theorem diff_eq (h : AgreeBelow i a b) (hi : bit a i ≠ bit b i) : diff a b = i := by
  have hne : a ≠ b := by
    intro e
    exact hi (by rw [e])
  rcases lt_trichotomy (diff a b) i with hlt | heq | hgt
  · exact absurd (h _ hlt) (bit_diff hne)
  · exact heq
  · exact absurd (bit_of_lt_diff hne hgt) hi

theorem le_diff (h : AgreeBelow i a b) (hne : a ≠ b) : i ≤ diff a b := by
  by_contra hlt
  exact bit_diff hne (h _ (by omega))

theorem bit_true_of_lt (h : a < b) : bit b (diff a b) = true := by
  obtain ⟨hne, hbit⟩ := lt_iff.mp h
  have := bit_diff hne
  rw [hbit] at this
  cases hb : bit b (diff a b) with
  | false => exact absurd hb.symm this
  | true => rfl

theorem lt_of_bits (h : AgreeBelow i a b) (ha : bit a i = false) (hb : bit b i = true) : a < b := by
  have hne : bit a i ≠ bit b i := by
    rw [ha, hb]
    exact Bool.false_ne_true
  refine lt_iff.mpr ⟨?_, ?_⟩
  · intro e
    exact hne (by rw [e])
  · rw [diff_eq h hne]
    exact ha

end BitKey

inductive PatriciaTree (K V : Type)
  | leaf (key : K) (value : V)
  | branch (bit : ℕ) (left right : PatriciaTree K V)
  deriving DecidableEq

namespace PatriciaTree
open BitKey

variable {K V : Type}

def entries : PatriciaTree K V → List (K × V)
  | .leaf key value => [(key, value)]
  | .branch _ left right => left.entries ++ right.entries

def keys (t : PatriciaTree K V) : List K := t.entries.map Prod.fst

@[simp] theorem keys_leaf (key : K) (value : V) : (leaf key value).keys = [key] := rfl

@[simp] theorem keys_branch (bit : ℕ) (left right : PatriciaTree K V) :
    (branch bit left right).keys = left.keys ++ right.keys := List.map_append ..

def minKey : PatriciaTree K V → K
  | .leaf key _ => key
  | .branch _ left _ => left.minKey

def maxKey : PatriciaTree K V → K
  | .leaf key _ => key
  | .branch _ _ right => right.maxKey

/-- The tree without its values. -/
def shape : PatriciaTree K V → PatriciaTree K Unit
  | .leaf key _ => .leaf key ()
  | .branch i left right => .branch i left.shape right.shape

@[simp] theorem keys_shape (t : PatriciaTree K V) : t.shape.keys = t.keys := by
  induction t with
  | leaf key value => rfl
  | branch i left right ihl ihr => rw [shape, keys_branch, keys_branch, ihl, ihr]

theorem minKey_mem (t : PatriciaTree K V) : t.minKey ∈ t.keys := by
  induction t with
  | leaf key value => exact List.mem_singleton_self key
  | branch bit left right ihl _ =>
    rw [keys_branch]
    exact List.mem_append_left _ ihl

theorem maxKey_mem (t : PatriciaTree K V) : t.maxKey ∈ t.keys := by
  induction t with
  | leaf key value => exact List.mem_singleton_self key
  | branch bit left right _ ihr =>
    rw [keys_branch]
    exact List.mem_append_right _ ihr

theorem mem_entries_unit {t : PatriciaTree K Unit} {e : K × Unit} :
    e ∈ t.entries ↔ e.1 ∈ t.keys := by
  constructor
  · exact List.mem_map_of_mem
  · intro h
    obtain ⟨e', he', heq⟩ := List.mem_map.mp h
    have : e' = e := Prod.ext heq rfl
    rwa [← this]

section Hash

variable {H : Type} (leafHash : K → H) (branchHash : ℕ → H → H → H)

/-- The hash of a tree: values are not hashed. -/
def hash : PatriciaTree K V → H
  | .leaf key _ => leafHash key
  | .branch i left right => branchHash i left.hash right.hash

@[simp] theorem hash_shape (t : PatriciaTree K V) :
    t.shape.hash leafHash branchHash = t.hash leafHash branchHash := by
  induction t with
  | leaf key value => rfl
  | branch i left right ihl ihr => rw [shape, hash, hash, ihl, ihr]

/-- What is hashed for a tree: its keys and the triples of its branches. -/
def hashed : PatriciaTree K V → List (K ⊕ ℕ × H × H)
  | .leaf key _ => [.inl key]
  | .branch i left right =>
    .inr (i, left.hash leafHash branchHash, right.hash leafHash branchHash) ::
      (left.hashed ++ right.hashed)

/-- One function for both kinds of hashes. -/
def nodeHash : K ⊕ ℕ × H × H → H
  | .inl key => leafHash key
  | .inr (i, l, r) => branchHash i l r

/-- Without collisions among what is hashed, the hash determines the shape. -/
theorem shape_eq_of_hash {W : Type} {t : PatriciaTree K V} {t' : PatriciaTree K W}
    (hinj : Set.InjOn (nodeHash leafHash branchHash)
      {x | x ∈ t.hashed leafHash branchHash ∨ x ∈ t'.hashed leafHash branchHash})
    (h : t.hash leafHash branchHash = t'.hash leafHash branchHash) : t.shape = t'.shape := by
  induction t generalizing t' with
  | leaf key value =>
    cases t' with
    | leaf key' value' =>
      have := hinj (Or.inl (List.mem_singleton_self _)) (Or.inr (List.mem_singleton_self _)) h
      rw [shape, shape, Sum.inl.inj this]
    | branch i left right =>
      have := hinj (Or.inl (List.mem_singleton_self _)) (Or.inr List.mem_cons_self) h
      cases this
  | branch i left right ihl ihr =>
    cases t' with
    | leaf key' value' =>
      have := hinj (Or.inl List.mem_cons_self) (Or.inr (List.mem_singleton_self _)) h
      cases this
    | branch i' left' right' =>
      have heq := hinj (Or.inl List.mem_cons_self) (Or.inr List.mem_cons_self) h
      simp only [Sum.inr.injEq, Prod.mk.injEq] at heq
      obtain ⟨rfl, hl, hr⟩ := heq
      have hleft : left.shape = left'.shape := by
        refine ihl (hinj.mono ?_) hl
        rintro x (hx | hx)
        · exact Or.inl (List.mem_cons_of_mem _ (List.mem_append_left _ hx))
        · exact Or.inr (List.mem_cons_of_mem _ (List.mem_append_left _ hx))
      have hright : right.shape = right'.shape := by
        refine ihr (hinj.mono ?_) hr
        rintro x (hx | hx)
        · exact Or.inl (List.mem_cons_of_mem _ (List.mem_append_right _ hx))
        · exact Or.inr (List.mem_cons_of_mem _ (List.mem_append_right _ hx))
      rw [shape, shape, hleft, hright]

end Hash

variable [LinearOrder K] [BitKey K]

/-- The branches separate their keys at the first bit in which these differ. -/
def WellFormed : PatriciaTree K V → Prop
  | .leaf _ _ => True
  | .branch i left right =>
    left.WellFormed ∧ right.WellFormed ∧ i < width K ∧
      (∀ k ∈ left.keys, BitKey.bit k i = false) ∧ (∀ k ∈ right.keys, BitKey.bit k i = true) ∧
      ∀ k ∈ left.keys ++ right.keys, ∀ k' ∈ left.keys ++ right.keys, AgreeBelow i k k'

/-- The leaf at which the search for a key ends. -/
def terminal (key : K) : PatriciaTree K V → K × V
  | .leaf k v => (k, v)
  | .branch i left right => if BitKey.bit key i then right.terminal key else left.terminal key

def find (key : K) (t : PatriciaTree K V) : Option V :=
  if (t.terminal key).1 = key then some (t.terminal key).2 else none

def replaceAt (key : K) (value : V) : PatriciaTree K V → PatriciaTree K V
  | .leaf _ _ => .leaf key value
  | .branch i left right =>
    if BitKey.bit key i then .branch i left (right.replaceAt key value)
    else .branch i (left.replaceAt key value) right

/-- The branch that separates a new leaf from a tree at bit `d`. -/
def split (d : ℕ) (key : K) (value : V) (t : PatriciaTree K V) : PatriciaTree K V :=
  if BitKey.bit key d then .branch d t (.leaf key value) else .branch d (.leaf key value) t

/-- The subtree after `n` turns towards a key. -/
def descendant (key : K) : PatriciaTree K V → ℕ → PatriciaTree K V
  | .branch i left right, n + 1 =>
    if BitKey.bit key i then right.descendant key n else left.descendant key n
  | t, _ => t

/-- Puts a tree in the place of the subtree after `n` turns towards a key. -/
def graft (key : K) : PatriciaTree K V → ℕ → PatriciaTree K V → PatriciaTree K V
  | .branch i left right, n + 1, s =>
    if BitKey.bit key i then .branch i left (right.graft key n s)
    else .branch i (left.graft key n s) right
  | _, _, s => s

/-- The number of branches on the path to a key. -/
def pathLength (key : K) : PatriciaTree K V → ℕ
  | .leaf _ _ => 0
  | .branch i left right =>
    (if BitKey.bit key i then right.pathLength key else left.pathLength key) + 1

/-- The number of branches on the path to a key that stay above bit `d`. -/
def pathAbove (key : K) (d : ℕ) : PatriciaTree K V → ℕ
  | .leaf _ _ => 0
  | .branch i left right =>
    if i < d then (if BitKey.bit key i then right.pathAbove key d else left.pathAbove key d) + 1
    else 0

def insertAt (d : ℕ) (key : K) (value : V) : PatriciaTree K V → PatriciaTree K V
  | .leaf k v => split d key value (.leaf k v)
  | .branch i left right =>
    if i < d then
      if BitKey.bit key i then .branch i left (right.insertAt d key value)
      else .branch i (left.insertAt d key value) right
    else split d key value (.branch i left right)

theorem graft_pathLength (key : K) (value : V) (t : PatriciaTree K V) :
    t.graft key (t.pathLength key) (.leaf key value) = t.replaceAt key value := by
  induction t with
  | leaf k v => rfl
  | branch i left right ihl ihr =>
    simp only [pathLength, graft, replaceAt]
    split
    · rw [ihr]
    · rw [ihl]

theorem graft_pathAbove (d : ℕ) (key : K) (value : V) (t : PatriciaTree K V) :
    t.graft key (t.pathAbove key d) (split d key value (t.descendant key (t.pathAbove key d))) =
      t.insertAt d key value := by
  induction t with
  | leaf k v => rfl
  | branch i left right ihl ihr =>
    simp only [pathAbove, insertAt]
    split
    · simp only [graft, descendant]
      split
      · rw [ihr]
      · rw [ihl]
    · rfl

theorem wellFormed_of_graft {key : K} {s : PatriciaTree K V} {n : ℕ} {t : PatriciaTree K V}
    (h : (t.graft key n s).WellFormed) : s.WellFormed := by
  induction n generalizing t with
  | zero =>
    cases t with
    | leaf k v => exact h
    | branch i left right => exact h
  | succ n ih =>
    cases t with
    | leaf k v => exact h
    | branch i left right =>
      simp only [graft] at h
      split at h
      · exact ih h.2.1
      · exact ih h.1

theorem mem_entries_graft {key : K} {s : PatriciaTree K V} {n : ℕ} {t : PatriciaTree K V}
    {e : K × V} (h : e ∈ s.entries) : e ∈ (t.graft key n s).entries := by
  induction n generalizing t with
  | zero =>
    cases t with
    | leaf k v => exact h
    | branch i left right => exact h
  | succ n ih =>
    cases t with
    | leaf k v => exact h
    | branch i left right =>
      simp only [graft]
      split
      · exact List.mem_append_right _ (ih)
      · exact List.mem_append_left _ (ih)

theorem terminal_mem (key : K) (t : PatriciaTree K V) : t.terminal key ∈ t.entries := by
  induction t with
  | leaf k v => exact List.mem_singleton_self _
  | branch i left right ihl ihr =>
    simp only [terminal, entries]
    split
    · exact List.mem_append_right _ ihr
    · exact List.mem_append_left _ ihl

theorem fst_terminal_mem (key : K) (t : PatriciaTree K V) : (t.terminal key).1 ∈ t.keys :=
  List.mem_map_of_mem (terminal_mem key t)

section WellFormed

variable {t : PatriciaTree K V}

theorem terminal_bit {i : ℕ} {left right : PatriciaTree K V}
    (h : (branch i left right).WellFormed) (key : K) :
    BitKey.bit ((branch i left right).terminal key).1 i = BitKey.bit key i := by
  obtain ⟨_, _, _, hleft, hright, _⟩ := h
  simp only [terminal]
  split
  · rename_i hbit
    rw [hbit, hright _ (fst_terminal_mem key right)]
  · rename_i hbit
    rw [hleft _ (fst_terminal_mem key left)]
    exact (Bool.eq_false_iff.mpr hbit).symm

theorem mem_branch_iff {i : ℕ} {left right : PatriciaTree K V}
    (h : (branch i left right).WellFormed) (key : K) (value : V) :
    (key, value) ∈ (branch i left right).entries ↔
      (key, value) ∈ (if BitKey.bit key i then right else left).entries := by
  obtain ⟨_, _, _, hleft, hright, _⟩ := h
  simp only [entries, List.mem_append]
  constructor
  · rintro (hmem | hmem)
    · rw [if_neg (by rw [hleft _ (List.mem_map_of_mem hmem)]; exact Bool.false_ne_true)]
      exact hmem
    · rw [if_pos (hright _ (List.mem_map_of_mem hmem))]
      exact hmem
  · intro hmem
    split at hmem
    · exact Or.inr hmem
    · exact Or.inl hmem

/-- A key of the tree is where its own search ends. -/
theorem terminal_of_mem (h : t.WellFormed) {key : K} {value : V} (hmem : (key, value) ∈ t.entries) :
    t.terminal key = (key, value) := by
  induction t with
  | leaf k v => exact (List.mem_singleton.mp hmem).symm
  | branch i left right ihl ihr =>
    rw [mem_branch_iff h] at hmem
    simp only [terminal]
    split at hmem
    · rename_i hbit
      rw [if_pos hbit]
      exact ihr h.2.1 hmem
    · rename_i hbit
      rw [if_neg hbit]
      exact ihl h.1 hmem

theorem find_eq_some (h : t.WellFormed) {key : K} {value : V} :
    t.find key = some value ↔ (key, value) ∈ t.entries := by
  unfold find
  constructor
  · intro hfind
    split at hfind
    · rename_i hkey
      have hmem := terminal_mem key t
      rw [← Option.some.inj hfind]
      have : t.terminal key = (key, (t.terminal key).2) := Prod.ext hkey rfl
      rw [this] at hmem
      exact hmem
    · cases hfind
  · intro hmem
    rw [terminal_of_mem h hmem]
    exact if_pos rfl

theorem find_eq_none (h : t.WellFormed) {key : K} : t.find key = none ↔ key ∉ t.keys := by
  constructor
  · intro hnone hmem
    obtain ⟨⟨k, v⟩, hentry, rfl⟩ := List.mem_map.mp hmem
    rw [(find_eq_some h).mpr hentry] at hnone
    cases hnone
  · intro hkey
    cases hfind : t.find key with
    | none => rfl
    | some v => exact absurd (List.mem_map_of_mem ((find_eq_some h).mp hfind)) hkey

/-- Below the last bit in which it agrees with the leaf its search ends at, a key agrees with
every key that is reached. -/
theorem agreeBelow_of_mem {i d : ℕ} {left right : PatriciaTree K V}
    (h : (branch i left right).WellFormed) (hd : d ≤ i) {key : K}
    (hkey : AgreeBelow d ((branch i left right).terminal key).1 key) {k : K}
    (hk : k ∈ (branch i left right).keys) : AgreeBelow d k key := by
  have hterminal := fst_terminal_mem key (branch i left right)
  rw [keys_branch] at hk hterminal
  exact ((h.2.2.2.2.2 k hk _ hterminal).mono hd).trans hkey

theorem wellFormed_split {d : ℕ} {key : K} (value : V) (h : t.WellFormed) (hd : d < width K)
    (hagree : ∀ k ∈ t.keys, AgreeBelow d k key)
    (hbit : ∀ k ∈ t.keys, BitKey.bit k d ≠ BitKey.bit key d) :
    (split d key value t).WellFormed := by
  have hall : ∀ k ∈ t.keys ++ [key], ∀ k' ∈ t.keys ++ [key], AgreeBelow d k k' := by
    have hone : ∀ k ∈ t.keys ++ [key], AgreeBelow d k key := by
      intro k hk
      rcases List.mem_append.mp hk with hk | hk
      · exact hagree k hk
      · rw [List.mem_singleton.mp hk]
        exact AgreeBelow.refl d key
    intro k hk k' hk'
    exact (hone k hk).trans (hone k' hk').symm
  unfold split
  split
  · rename_i hkey
    refine ⟨h, trivial, hd, ?_, ?_, hall⟩
    · intro k hk
      have := hbit k hk
      rw [hkey] at this
      exact Bool.eq_false_iff.mpr this
    · intro k hk
      rw [List.mem_singleton.mp hk]
      exact hkey
  · rename_i hkey
    refine ⟨trivial, h, hd, ?_, ?_, ?_⟩
    · intro k hk
      rw [List.mem_singleton.mp hk]
      exact Bool.eq_false_iff.mpr hkey
    · intro k hk
      have := hbit k hk
      rw [Bool.eq_false_iff.mpr hkey] at this
      exact (Bool.ne_false_iff).mp this
    · intro k hk k' hk'
      refine hall k ?_ k' ?_
      · rw [List.mem_append] at hk ⊢
        exact hk.symm
      · rw [List.mem_append] at hk' ⊢
        exact hk'.symm

theorem mem_entries_split {d : ℕ} {key : K} {value : V} {e : K × V} :
    e ∈ (split d key value t).entries ↔ e = (key, value) ∨ e ∈ t.entries := by
  unfold split
  split
  · simp only [entries, List.mem_append, List.mem_singleton]
    exact or_comm
  · simp only [entries, List.mem_append, List.mem_singleton]

theorem mem_entries_insertAt {d : ℕ} {key : K} {value : V} {e : K × V} :
    e ∈ (t.insertAt d key value).entries ↔ e = (key, value) ∨ e ∈ t.entries := by
  induction t with
  | leaf k v => exact mem_entries_split
  | branch i left right ihl ihr =>
    simp only [insertAt]
    split
    · split
      · simp only [entries, List.mem_append, ihr]
        tauto
      · simp only [entries, List.mem_append, ihl]
        tauto
    · exact mem_entries_split

theorem mem_keys_insertAt {d : ℕ} {key : K} {value : V} {k : K} :
    k ∈ (t.insertAt d key value).keys ↔ k = key ∨ k ∈ t.keys := by
  unfold keys
  simp only [List.mem_map, mem_entries_insertAt]
  constructor
  · rintro ⟨e, rfl | he, rfl⟩
    · exact Or.inl rfl
    · exact Or.inr ⟨e, he, rfl⟩
  · rintro (rfl | ⟨e, he, rfl⟩)
    · exact ⟨_, Or.inl rfl, rfl⟩
    · exact ⟨e, Or.inr he, rfl⟩

/-- Inserting at the first bit that separates the key from the leaf its search ends at. -/
theorem wellFormed_insertAt (h : t.WellFormed) {key : K} (value : V)
    (hne : (t.terminal key).1 ≠ key) :
    (t.insertAt (diff (t.terminal key).1 key) key value).WellFormed := by
  have hagree := agreeBelow_diff hne
  have hbit := bit_diff hne
  have hwidth := diff_lt_width hne
  generalize diff (t.terminal key).1 key = d at hagree hbit hwidth
  induction t with
  | leaf k v =>
    refine wellFormed_split value h hwidth ?_ ?_
    · intro k' hk'
      rw [List.mem_singleton.mp hk']
      exact hagree
    · intro k' hk'
      rw [List.mem_singleton.mp hk']
      exact hbit
  | branch i left right ihl ihr =>
    simp only [insertAt]
    split
    · rename_i hlt
      have hterminal := fst_terminal_mem key (branch i left right)
      have hlow : ∀ k ∈ left.keys ++ right.keys, AgreeBelow i k key := by
        intro k hk
        exact agreeBelow_of_mem h le_rfl (hagree.mono hlt.le) (by rw [keys_branch]; exact hk)
      obtain ⟨hl, hr, hi, hleft, hright, hall⟩ := h
      simp only [terminal] at hagree hbit hne
      split
      · rename_i hkey
        rw [if_pos hkey] at hagree hbit hne
        refine ⟨hl, ihr hr hne hagree hbit, hi, hleft, ?_, ?_⟩
        · intro k hk
          rcases mem_keys_insertAt.1 hk with rfl | hk
          · exact hkey
          · exact hright k hk
        · have hone : ∀ k ∈ left.keys ++ (right.insertAt d key value).keys, AgreeBelow i k key := by
            intro k hk
            rcases List.mem_append.mp hk with hk | hk
            · exact hlow k (List.mem_append_left _ hk)
            · rcases mem_keys_insertAt.1 hk with rfl | hk
              · exact AgreeBelow.refl i k
              · exact hlow k (List.mem_append_right _ hk)
          intro k hk k' hk'
          exact (hone k hk).trans (hone k' hk').symm
      · rename_i hkey
        rw [if_neg hkey] at hagree hbit hne
        refine ⟨ihl hl hne hagree hbit, hr, hi, ?_, hright, ?_⟩
        · intro k hk
          rcases mem_keys_insertAt.1 hk with rfl | hk
          · exact Bool.eq_false_iff.mpr hkey
          · exact hleft k hk
        · have hone : ∀ k ∈ (left.insertAt d key value).keys ++ right.keys, AgreeBelow i k key := by
            intro k hk
            rcases List.mem_append.mp hk with hk | hk
            · rcases mem_keys_insertAt.1 hk with rfl | hk
              · exact AgreeBelow.refl i k
              · exact hlow k (List.mem_append_left _ hk)
            · exact hlow k (List.mem_append_right _ hk)
          intro k hk k' hk'
          exact (hone k hk).trans (hone k' hk').symm
    · rename_i hge
      have hbelow : ∀ k ∈ (branch i left right).keys, AgreeBelow d k key :=
        fun k hk => agreeBelow_of_mem h (by omega) hagree hk
      -- The search turned by the key's own bit, so the keys cannot part at the branch's bit.
      have hlt : d < i := by
        rcases Nat.lt_or_ge d i with hlt | hle
        · exact hlt
        · have : d = i := by omega
          rw [this, terminal_bit h key] at hbit
          exact absurd rfl hbit
      refine wellFormed_split value h hwidth hbelow ?_
      intro k hk
      have hterminal := fst_terminal_mem key (branch i left right)
      rw [keys_branch] at hk hterminal
      rw [h.2.2.2.2.2 k hk _ hterminal d hlt]
      exact hbit

theorem mem_entries_replaceAt (h : t.WellFormed) {key : K} {value : V}
    (hkey : (t.terminal key).1 = key) {e : K × V} :
    e ∈ (t.replaceAt key value).entries ↔ e = (key, value) ∨ e.1 ≠ key ∧ e ∈ t.entries := by
  induction t with
  | leaf k v =>
    have hk : k = key := hkey
    simp only [replaceAt, entries, List.mem_singleton]
    constructor
    · exact Or.inl
    · rintro (he | ⟨hne, rfl⟩)
      · exact he
      · exact absurd hk hne
  | branch i left right ihl ihr =>
    have hside : ∀ k ∈ (if BitKey.bit key i then left else right).keys, k ≠ key := by
      intro k hk e
      subst e
      split at hk
      · rename_i hbit
        rw [h.2.2.2.1 k hk] at hbit
        cases hbit
      · rename_i hbit
        exact hbit (h.2.2.2.2.1 k hk)
    simp only [terminal] at hkey
    simp only [replaceAt]
    split
    · rename_i hbit
      rw [if_pos hbit] at hkey hside
      simp only [entries, List.mem_append, ihr h.2.1 hkey]
      have : e ∈ left.entries → e.1 ≠ key := fun he => hside _ (List.mem_map_of_mem he)
      tauto
    · rename_i hbit
      rw [if_neg hbit] at hkey hside
      simp only [entries, List.mem_append, ihl h.1 hkey]
      have : e ∈ right.entries → e.1 ≠ key := fun he => hside _ (List.mem_map_of_mem he)
      tauto

theorem keys_replaceAt {key : K} {value : V} (hkey : (t.terminal key).1 = key) :
    (t.replaceAt key value).keys = t.keys := by
  induction t with
  | leaf k v =>
    have hk : k = key := hkey
    simp only [replaceAt, keys_leaf, hk]
  | branch i left right ihl ihr =>
    simp only [terminal] at hkey
    simp only [replaceAt]
    split
    · rename_i hbit
      rw [if_pos hbit] at hkey
      rw [keys_branch, keys_branch, ihr hkey]
    · rename_i hbit
      rw [if_neg hbit] at hkey
      rw [keys_branch, keys_branch, ihl hkey]

theorem wellFormed_replaceAt (h : t.WellFormed) {key : K} (value : V)
    (hkey : (t.terminal key).1 = key) : (t.replaceAt key value).WellFormed := by
  induction t with
  | leaf k v => trivial
  | branch i left right ihl ihr =>
    obtain ⟨hl, hr, hi, hleft, hright, hall⟩ := h
    simp only [terminal] at hkey
    simp only [replaceAt]
    split
    · rename_i hbit
      rw [if_pos hbit] at hkey
      refine ⟨hl, ihr hr hkey, hi, hleft, ?_, ?_⟩
      · rw [keys_replaceAt hkey]
        exact hright
      · rw [keys_replaceAt hkey]
        exact hall
    · rename_i hbit
      rw [if_neg hbit] at hkey
      refine ⟨ihl hl hkey, hr, hi, ?_, hright, ?_⟩
      · rw [keys_replaceAt hkey]
        exact hleft
      · rw [keys_replaceAt hkey]
        exact hall

theorem replaceAt_self {key : K} {value : V} (h : t.terminal key = (key, value)) :
    t.replaceAt key value = t := by
  induction t with
  | leaf k v =>
    simp only [terminal, Prod.mk.injEq] at h
    rw [replaceAt, h.1, h.2]
  | branch i left right ihl ihr =>
    simp only [terminal] at h
    simp only [replaceAt]
    split
    · rename_i hbit
      rw [if_pos hbit] at h
      rw [ihr h]
    · rename_i hbit
      rw [if_neg hbit] at h
      rw [ihl h]

/-- Writing one association, as a whole: the key is replaced or inserted. -/
def write (key : K) (value : V) (t : PatriciaTree K V) : PatriciaTree K V :=
  if (t.terminal key).1 = key then t.replaceAt key value
  else t.insertAt (diff (t.terminal key).1 key) key value

theorem wellFormed_write (h : t.WellFormed) (key : K) (value : V) :
    (t.write key value).WellFormed := by
  unfold write
  split
  · rename_i hkey
    exact wellFormed_replaceAt h value hkey
  · rename_i hkey
    exact wellFormed_insertAt h value hkey

theorem terminal_of_mem_keys (h : t.WellFormed) {key : K} (hmem : key ∈ t.keys) :
    (t.terminal key).1 = key := by
  obtain ⟨⟨k, v⟩, hentry, rfl⟩ := List.mem_map.mp hmem
  rw [terminal_of_mem h hentry]

theorem mem_keys_iff (h : t.WellFormed) {key : K} : key ∈ t.keys ↔ (t.terminal key).1 = key := by
  constructor
  · exact terminal_of_mem_keys h
  · intro hkey
    have := fst_terminal_mem key t
    rwa [hkey] at this

theorem mem_entries_write (h : t.WellFormed) {key : K} {value : V} {e : K × V} :
    e ∈ (t.write key value).entries ↔ e = (key, value) ∨ e.1 ≠ key ∧ e ∈ t.entries := by
  unfold write
  split
  · rename_i hkey
    exact mem_entries_replaceAt h hkey
  · rename_i hkey
    have hnot : e ∈ t.entries → e.1 ≠ key := by
      rintro he rfl
      exact hkey (terminal_of_mem_keys h (List.mem_map_of_mem he))
    rw [mem_entries_insertAt]
    tauto

theorem find_write (h : t.WellFormed) (key : K) (value : V) (k : K) :
    (t.write key value).find k = if k = key then some value else t.find k := by
  have hw := wellFormed_write h key value
  split
  · rename_i hk
    exact (find_eq_some hw).mpr ((mem_entries_write h).mpr (Or.inl (by rw [hk])))
  · rename_i hk
    ext v
    rw [find_eq_some hw, find_eq_some h, mem_entries_write h]
    simp only [Prod.mk.injEq, hk, false_and, false_or, ne_eq, not_false_eq_true, true_and]

theorem mem_keys_write (h : t.WellFormed) {key : K} {value : V} {k : K} :
    k ∈ (t.write key value).keys ↔ k = key ∨ k ∈ t.keys := by
  unfold write
  split
  · rename_i hkey
    rw [keys_replaceAt hkey]
    constructor
    · exact Or.inr
    · rintro (rfl | hk)
      · exact (mem_keys_iff h).mpr hkey
      · exact hk
  · exact mem_keys_insertAt

theorem lt_of_branch {i : ℕ} {left right : PatriciaTree K V} (h : (branch i left right).WellFormed)
    {k k' : K} (hk : k ∈ left.keys) (hk' : k' ∈ right.keys) : k < k' :=
  lt_of_bits (h.2.2.2.2.2 k (List.mem_append_left _ hk) k' (List.mem_append_right _ hk'))
    (h.2.2.2.1 k hk) (h.2.2.2.2.1 k' hk')

theorem pairwise_keys (h : t.WellFormed) : t.keys.Pairwise (· < ·) := by
  induction t with
  | leaf k v => exact List.pairwise_singleton _ _
  | branch i left right ihl ihr =>
    rw [keys_branch, List.pairwise_append]
    exact ⟨ihl h.1, ihr h.2.1, fun k hk k' hk' => lt_of_branch h hk hk'⟩

theorem minKey_le (h : t.WellFormed) {k : K} (hk : k ∈ t.keys) : t.minKey ≤ k := by
  induction t with
  | leaf key v => exact (List.mem_singleton.mp hk).ge
  | branch i left right ihl ihr =>
    rw [keys_branch] at hk
    rcases List.mem_append.mp hk with hk | hk
    · exact ihl h.1 hk
    · exact (lt_of_branch h (minKey_mem left) hk).le

theorem le_maxKey (h : t.WellFormed) {k : K} (hk : k ∈ t.keys) : k ≤ t.maxKey := by
  induction t with
  | leaf key v => exact (List.mem_singleton.mp hk).le
  | branch i left right ihl ihr =>
    rw [keys_branch] at hk
    rcases List.mem_append.mp hk with hk | hk
    · exact (lt_of_branch h hk (maxKey_mem right)).le
    · exact ihr h.2.1 hk

theorem bit_eq_of_keys {i i' : ℕ} {left right left' right' : PatriciaTree K V}
    (h : (branch i left right).WellFormed) (h' : (branch i' left' right').WellFormed)
    (hkeys : ∀ k, k ∈ (branch i left right).keys → k ∈ (branch i' left' right').keys) :
    i' ≤ i := by
  by_contra hlt
  have hmin := minKey_mem left
  have hmax := maxKey_mem right
  have hagree := h'.2.2.2.2.2 left.minKey
    (by rw [← keys_branch i']; exact hkeys _ (by rw [keys_branch]; exact List.mem_append_left _ hmin))
    right.maxKey
    (by rw [← keys_branch i']; exact hkeys _ (by rw [keys_branch]; exact List.mem_append_right _ hmax))
    i (by omega)
  rw [h.2.2.2.1 _ hmin, h.2.2.2.2.1 _ hmax] at hagree
  cases hagree

theorem not_singleton_keys {i : ℕ} {left right : PatriciaTree K V}
    (h : (branch i left right).WellFormed) (key : K)
    (hkeys : ∀ k ∈ (branch i left right).keys, k = key) : False := by
  have hlt := lt_of_branch h (minKey_mem left) (maxKey_mem right)
  rw [hkeys left.minKey (by rw [keys_branch]; exact List.mem_append_left _ (minKey_mem left)),
    hkeys right.maxKey (by rw [keys_branch]; exact List.mem_append_right _ (maxKey_mem right))] at hlt
  exact lt_irrefl _ hlt

/-- A finite set of associations has one well-formed tree. -/
theorem eq_of_entries {t' : PatriciaTree K V} (h : t.WellFormed) (h' : t'.WellFormed)
    (hentries : ∀ e, e ∈ t.entries ↔ e ∈ t'.entries) : t = t' := by
  have keys_of : ∀ {s s' : PatriciaTree K V}, (∀ e, e ∈ s.entries ↔ e ∈ s'.entries) →
      ∀ k, k ∈ s.keys → k ∈ s'.keys := by
    intro s s' hs k hk
    obtain ⟨e, he, rfl⟩ := List.mem_map.mp hk
    exact List.mem_map_of_mem ((hs e).mp he)
  induction t generalizing t' with
  | leaf key value =>
    cases t' with
    | leaf key' value' =>
      have := (hentries (key, value)).mp (List.mem_singleton_self _)
      cases List.mem_singleton.mp this
      rfl
    | branch i left right =>
      refine (not_singleton_keys h' key ?_).elim
      intro k hk
      exact List.mem_singleton.mp (keys_of (fun e => (hentries e).symm) k hk)
  | branch i left right ihl ihr =>
    cases t' with
    | leaf key' value' =>
      refine (not_singleton_keys h key' ?_).elim
      intro k hk
      exact List.mem_singleton.mp (keys_of hentries k hk)
    | branch i' left' right' =>
      have hi : i = i' := by
        have h₁ := bit_eq_of_keys h h' (keys_of hentries)
        have h₂ := bit_eq_of_keys h' h (keys_of fun e => (hentries e).symm)
        omega
      subst hi
      have hsides : ∀ e : K × V, e ∈ (if BitKey.bit e.1 i then right else left).entries ↔
          e ∈ (if BitKey.bit e.1 i then right' else left').entries := by
        intro e
        rw [← mem_branch_iff h e.1 e.2, ← mem_branch_iff h' e.1 e.2]
        exact hentries e
      have hleft : left = left' := by
        refine ihl h.1 h'.1 fun e => ?_
        have := hsides e
        cases hbit : BitKey.bit e.1 i with
        | false => simpa only [hbit, Bool.false_eq_true, if_false] using this
        | true =>
          constructor
          · intro he
            have := h.2.2.2.1 _ (List.mem_map_of_mem he)
            rw [hbit] at this
            cases this
          · intro he
            have := h'.2.2.2.1 _ (List.mem_map_of_mem he)
            rw [hbit] at this
            cases this
      have hright : right = right' := by
        refine ihr h.2.1 h'.2.1 fun e => ?_
        have := hsides e
        cases hbit : BitKey.bit e.1 i with
        | true => simpa only [hbit, if_true] using this
        | false =>
          constructor
          · intro he
            have := h.2.2.2.2.1 _ (List.mem_map_of_mem he)
            rw [hbit] at this
            cases this
          · intro he
            have := h'.2.2.2.2.1 _ (List.mem_map_of_mem he)
            rw [hbit] at this
            cases this
      rw [hleft, hright]

theorem wellFormed_shape (h : t.WellFormed) : t.shape.WellFormed := by
  induction t with
  | leaf key value => trivial
  | branch i left right ihl ihr =>
    obtain ⟨hl, hr, hi, hleft, hright, hall⟩ := h
    refine ⟨ihl hl, ihr hr, hi, ?_, ?_, ?_⟩
    · rwa [keys_shape]
    · rwa [keys_shape]
    · rwa [keys_shape, keys_shape]

/-- A finite set of keys has one shape, whatever its values. -/
theorem shape_eq_of_keys {W : Type} {t' : PatriciaTree K W} (h : t.WellFormed) (h' : t'.WellFormed)
    (hkeys : ∀ k, k ∈ t.keys ↔ k ∈ t'.keys) : t.shape = t'.shape := by
  refine eq_of_entries (wellFormed_shape h) (wellFormed_shape h') fun e => ?_
  rw [mem_entries_unit, mem_entries_unit, keys_shape, keys_shape]
  exact hkeys e.1

end WellFormed

end PatriciaTree
end Naome
