import MonitoringAgent.Registry.Files

/-!
# The stores of the scan of `res/`

The two lengths in a file are used as they are: as counts of `fread`, as the index of the
terminating NUL and as the size of the block for the module.
-/
namespace MonitoringAgent

open Buffer Word

/-- A store: `len` bytes of `type` from an index on, or of a block of memory from its
start. NULL is a block without a byte. -/
inductive ScanStore where
  | type (off : Int) (len : Nat)
  | module (block len : Nat)
  deriving DecidableEq

def ScanStore.Inside : ScanStore → Prop
  | .type off len => 0 ≤ off ∧ off + len ≤ bfsz
  | .module block len => len ≤ block

instance (st : ScanStore) : Decidable st.Inside :=
  match st with
  | .type _ _ => inferInstanceAs (Decidable (_ ∧ _))
  | .module _ _ => inferInstanceAs (Decidable (_ ≤ _))

/-- An `int` as a `size_t`. -/
def sizeT (size : Int) : Nat := (size % 2 ^ 64).toNat

/-- The stores of one turn of the loop; `malloc` says which sizes it has memory for.
A read that is cut short has stored what there was. -/
def scanStores (malloc : Nat → Bool) (content : Text) : List ScanStore :=
  match readInt32 content with
  | none => []
  | some (size, rest) =>
    .type 0 (min (sizeT size) rest.length) ::
      match readBytes size rest with
      | none => []
      | some (_, rest) =>
        .type size 1 ::
          match readInt32 rest with
          | none => []
          | some (size, rest) =>
            [.module (if malloc (sizeT size) then sizeT size else 0)
              (min (sizeT size) rest.length)]

/-- The file starts with a whole encoding. -/
def Complete (content : Text) : Prop :=
  ∃ type module rest, type.length < 2 ^ 31 ∧ module.length < 2 ^ 31 ∧
    content = le32 type.length ++ (type ++ (le32 module.length ++ (module ++ rest)))

/-- A file that the scan reads without harm: it ends in the type and what it has of it fits,
or the type has room for its NUL and there is memory for the module. -/
def Contained (malloc : Nat → Bool) (content : Text) : Prop :=
  ∀ size rest, readInt32 content = some (size, rest) →
    rest.length < sizeT size ∧ rest.length ≤ bfsz ∨
      0 ≤ size ∧ size < bfsz ∧
        ∀ size' rest', readInt32 (rest.drop size.toNat) = some (size', rest') →
          malloc (sizeT size') = true ∨ size' = 0 ∨ rest' = []

variable {n : Nat} {malloc : Nat → Bool} {content t : Text} {size : Int}

theorem readBytes_of_lt (hlt : t.length < sizeT size) : readBytes size t = none := by
  unfold readBytes
  dsimp only
  exact if_neg (not_le.mpr hlt)

theorem readBytes_of_le (hle : sizeT size ≤ t.length) :
    readBytes size t = some (t.take (sizeT size), t.drop (sizeT size)) := by
  unfold readBytes
  dsimp only
  exact if_pos hle

theorem toInt32_bounds (a b c d : Byte) :
    - 2 ^ 31 ≤ toInt32 a b c d ∧ toInt32 a b c d < 2 ^ 31 := by
  unfold toInt32
  generalize (a.toNat + b.toNat * 2 ^ 8 + c.toNat * 2 ^ 16 + d.toNat * 2 ^ 24 : Int) = x
  exact ⟨Int.le_bmod (by decide), Int.bmod_lt (by decide)⟩

theorem readInt32_bounds {rest : Text} (h : readInt32 t = some (size, rest)) :
    - 2 ^ 31 ≤ size ∧ size < 2 ^ 31 := by
  unfold readInt32 at h
  split at h
  · obtain ⟨rfl, -⟩ := Prod.mk.inj (Option.some.inj h)
    exact toInt32_bounds _ _ _ _
  · cases h

theorem sizeT_of_nonneg (h : 0 ≤ size) (hlt : size < 2 ^ 31) : sizeT size = size.toNat := by
  unfold sizeT
  omega

theorem sizeT_eq_zero {rest : Text} (h : readInt32 t = some (size, rest)) :
    sizeT size = 0 ↔ size = 0 := by
  have := readInt32_bounds h
  unfold sizeT
  omega

theorem readBytes_eq_some {w rest : Text} (h : readBytes size t = some (w, rest)) :
    w.length = sizeT size ∧ t = w ++ rest := by
  rcases Nat.lt_or_ge t.length (sizeT size) with hlt | hle
  · rw [readBytes_of_lt hlt] at h
    cases h
  · rw [readBytes_of_le hle] at h
    obtain ⟨rfl, rfl⟩ := Prod.mk.inj (Option.some.inj h)
    exact ⟨List.length_take_of_le hle, (List.take_append_drop _ t).symm⟩

theorem length_readInt32 {rest : Text} (h : readInt32 t = some (size, rest)) :
    rest.length + 4 = t.length := by
  unfold readInt32 at h
  split at h
  · obtain ⟨-, rfl⟩ := Prod.mk.inj (Option.some.inj h)
    rfl
  · cases h

/-- A negative length asks for more than a file can have. -/
theorem nonneg_of_sizeT (h : - 2 ^ 31 ≤ size ∧ size < 2 ^ 31) (hlt : sizeT size < 2 ^ 63) :
    0 ≤ size := by
  unfold sizeT at hlt
  omega

/-- The last store is inside of its block. -/
theorem module_inside {size : Int} {rest : Text} (h : readInt32 t = some (size, rest)) :
    (ScanStore.module (if malloc (sizeT size) then sizeT size else 0)
        (min (sizeT size) rest.length)).Inside ↔
      malloc (sizeT size) = true ∨ size = 0 ∨ rest = [] := by
  by_cases hmalloc : malloc (sizeT size) = true
  · simp [ScanStore.Inside, hmalloc]
  · rw [← sizeT_eq_zero h, ← List.length_eq_zero_iff]
    simp only [ScanStore.Inside, hmalloc, false_or, if_false, Bool.false_eq_true]
    omega

theorem forall_some_pair {α β : Type} {a : α} {b : β} {P : α → β → Prop} :
    (∀ x y, some (a, b) = some (x, y) → P x y) ↔ P a b := by
  constructor
  · intro h
    exact h a b rfl
  · intro h x y heq
    obtain ⟨rfl, rfl⟩ := Prod.mk.inj (Option.some.inj heq)
    exact h

/-- The stores of the part of a file behind the type. -/
theorem module_stores_inside_iff :
    (∀ st ∈ (match readInt32 t with
      | none => []
      | some (size, rest) =>
        [ScanStore.module (if malloc (sizeT size) then sizeT size else 0)
          (min (sizeT size) rest.length)]), st.Inside) ↔
      ∀ size rest, readInt32 t = some (size, rest) →
        malloc (sizeT size) = true ∨ size = 0 ∨ rest = [] := by
  cases hmodule : readInt32 t with
  | none => simp
  | some sr =>
    obtain ⟨size, rest⟩ := sr
    dsimp only
    rw [List.forall_mem_singleton, module_inside hmodule, forall_some_pair]

theorem nul_inside_iff : (ScanStore.type size 1).Inside ↔ 0 ≤ size ∧ size < bfsz := by
  simp only [ScanStore.Inside]
  omega

/-- What is stored of a type that the file ends in. -/
theorem type_inside_of_lt (hlt : t.length < sizeT size) :
    (ScanStore.type 0 (min (sizeT size) t.length)).Inside ↔ t.length ≤ bfsz := by
  simp only [ScanStore.Inside]
  omega

theorem type_inside_of_room (hsizeT : sizeT size = size.toNat) (hlt : size < bfsz) :
    (ScanStore.type 0 (min (sizeT size) t.length)).Inside := by
  simp only [ScanStore.Inside]
  omega

theorem stores_inside_iff :
    (∀ st ∈ scanStores malloc content, st.Inside) ↔ Contained malloc content := by
  unfold scanStores Contained
  cases hsize : readInt32 content with
  | none => simp
  | some sr =>
    obtain ⟨size, rest⟩ := sr
    have hbounds := readInt32_bounds hsize
    dsimp only
    rw [List.forall_mem_cons, forall_some_pair]
    rcases Nat.lt_or_ge rest.length (sizeT size) with hlt | hle
    · -- the file ends in the type
      rw [readBytes_of_lt hlt, type_inside_of_lt hlt, and_iff_left (List.forall_mem_nil _)]
      constructor
      · intro hfits
        exact Or.inl ⟨hlt, hfits⟩
      · rintro (⟨-, hfits⟩ | ⟨hnn, hsize, -⟩)
        · exact hfits
        · have := sizeT_of_nonneg hnn hbounds.2
          omega
    · have hshort : ¬ (rest.length < sizeT size ∧ rest.length ≤ bfsz) := by omega
      rw [readBytes_of_le hle, or_iff_right hshort]
      dsimp only
      rw [List.forall_mem_cons, nul_inside_iff]
      by_cases hroom : 0 ≤ size ∧ size < bfsz
      · have hsizeT := sizeT_of_nonneg hroom.1 hbounds.2
        rw [and_iff_right (type_inside_of_room hsizeT hroom.2), hsizeT, module_stores_inside_iff,
          and_assoc]
      · constructor
        · rintro ⟨-, hin, -⟩
          exact absurd hin hroom
        · rintro ⟨hnn, hlt, -⟩
          exact absurd ⟨hnn, hlt⟩ hroom

/-- What is read as a whole is a whole encoding; a file is shorter than an `off_t` says. -/
theorem complete_of_readSaved {sv : Saved} (hlen : content.length < 2 ^ 63)
    (h : readSaved content = some sv) : Complete content := by
  unfold readSaved at h
  simp only [Option.bind_eq_bind, Option.bind_eq_some_iff] at h
  obtain ⟨⟨size, rest₁⟩, h₁, ⟨type, rest₂⟩, h₂, ⟨size', rest₃⟩, h₃, ⟨module, rest₄⟩, h₄, -⟩ := h
  obtain ⟨htype, rfl⟩ := readBytes_eq_some h₂
  obtain ⟨hmodule, rfl⟩ := readBytes_eq_some h₄
  dsimp only at h₁ h₂ h₃ htype hmodule
  have hlen₁ := length_readInt32 h₁
  have hlen₃ := length_readInt32 h₃
  rw [List.length_append] at hlen₁ hlen₃
  have hsize : 0 ≤ size := nonneg_of_sizeT (readInt32_bounds h₁) (by omega)
  have hsize' : 0 ≤ size' := nonneg_of_sizeT (readInt32_bounds h₃) (by omega)
  obtain ⟨rfl, hlt⟩ := readInt32_eq_some h₁ hsize
  obtain ⟨rfl, hlt'⟩ := readInt32_eq_some h₃ hsize'
  rw [sizeT_of_nonneg hsize (readInt32_bounds h₁).2] at htype
  rw [sizeT_of_nonneg hsize' (readInt32_bounds h₃).2] at hmodule
  exact ⟨type, module, rest₄, htype ▸ hlt, hmodule ▸ hlt', by rw [htype, hmodule]⟩

/-- The scan of a file stays inside `type` and the block for the module exactly where the
lengths in it allow for that, and a file that is cut short changes no plugin. -/
theorem scan_inside_iff (malloc : Nat → Bool) {content : Text} (hlen : content.length < 2 ^ 63) :
    ((∀ st ∈ scanStores malloc content, st.Inside) ∧
      ∀ (n : Nat) (cmp : Fin n → Text → Text → Int → Bool) ps store e, ¬ Complete content →
        store (entryPath e.name) = some content → (scanEntry cmp (ps, store) e).1 = ps) ↔
      Contained malloc content := by
  rw [stores_inside_iff]
  refine and_iff_left ?_
  intro n cmp ps store e hcomplete hcontent
  have hread : readSaved content = none := by
    cases hsv : readSaved content with
    | none => rfl
    | some sv => exact absurd (complete_of_readSaved hlen hsv) hcomplete
  unfold scanEntry
  split
  · rfl
  · dsimp only
    rw [hcontent]
    simp only [hread]

theorem scan_inside_iff_sample :
    (∀ st ∈ scanStores (fun _ => true) (le32 2 ++ str "os" ++ le32 3 ++ str "a"), st.Inside) ∧
      ∀ (n : Nat) (cmp : Fin n → Text → Text → Int → Bool) ps store e,
        ¬ Complete (le32 2 ++ str "os" ++ le32 3 ++ str "a") →
          store (entryPath e.name) = some (le32 2 ++ str "os" ++ le32 3 ++ str "a") →
            (scanEntry cmp (ps, store) e).1 = ps :=
  (scan_inside_iff (fun _ => true) (by decide)).mpr (stores_inside_iff.mp (by decide))

/-- A type of 128 bytes puts its NUL behind the array, and a negative length lets the rest
of the file be read over it. -/
theorem scan_leaves_type :
    ScanStore.type 128 1 ∈ scanStores (fun _ => true) (le32 128 ++ List.replicate 128 (ch 'x')) ∧
      ¬ (ScanStore.type 128 1).Inside ∧
      ScanStore.type 0 200 ∈
        scanStores (fun _ => true) (le32 (2 ^ 32 - 1) ++ List.replicate 200 (ch 'x')) ∧
      ¬ (ScanStore.type 0 200).Inside := by
  refine ⟨by decide +kernel, by decide, by decide +kernel, by decide⟩

end MonitoringAgent
