import MonitoringAgent.Config.Reader

/-!
# The arrays of `sparse`

Neither the store to `argv[argc++]` nor the one to `plugins[n++]` is guarded: a file stays
inside the arrays exactly when it asks for no more than they hold.
-/
namespace MonitoringAgent

open Buffer Scan

variable {δ σ α : Type}

/-- Where the reader stands after some pieces, all allowed. -/
def Reader.reach (loader : Text → Option σ) : Reader σ → List Text → Option (Reader σ)
  | r, [] => some r
  | r, l :: ls => (r.next loader l).bind fun r' => r'.reach loader ls

/-- The blocks that are closed, in the order of the file. -/
def Reader.blocks (loader : Text → Option σ) : Reader σ → List Text → List (σ × List Text)
  | _, [] => []
  | r, l :: ls =>
    match r.next loader l with
    | none => []
    | some r' => (r.block l).toList ++ r'.blocks loader ls

/-- No block has more values than `argv` holds, and no more blocks load than `plugins`
holds, given the number of those before. -/
structure Bounded (h : Host δ σ α) (r : Reader σ) (n : Nat) (ls : List Text) : Prop where
  values : ∀ pre r', pre <+: ls → r.reach h.loader pre = some r' → r'.place.Fits
  plugins : n + (h.loaded (r.blocks h.loader ls)).length ≤ maxPlugins

variable {h : Host δ σ α} {r r' : Reader σ} {l : Text} {ls : List Text} {n : Nat}

theorem bounded_nil : Bounded h r n [] ↔ r.place.Fits ∧ n ≤ maxPlugins := by
  constructor
  · intro hb
    exact ⟨hb.values [] r List.prefix_rfl rfl, hb.plugins⟩
  · rintro ⟨hfits, hn⟩
    refine ⟨?_, hn⟩
    intro pre r' hpre hreach
    obtain rfl := List.prefix_nil.mp hpre
    obtain rfl := Option.some.inj hreach
    exact hfits

theorem bounded_of_reject (hnext : r.next h.loader l = none) :
    Bounded h r n (l :: ls) ↔ r.place.Fits ∧ n ≤ maxPlugins := by
  constructor
  · intro hb
    have hroom := hb.plugins
    rw [Reader.blocks, hnext] at hroom
    exact ⟨hb.values [] r List.nil_prefix rfl, hroom⟩
  · rintro ⟨hfits, hn⟩
    refine ⟨?_, ?_⟩
    · intro pre r' hpre hreach
      cases pre with
      | nil =>
        obtain rfl := Option.some.inj hreach
        exact hfits
      | cons l' pre =>
        obtain ⟨rfl, -⟩ := List.cons_prefix_cons.mp hpre
        rw [Reader.reach, hnext] at hreach
        cases hreach
    · rw [Reader.blocks, hnext]
      exact hn

theorem bounded_of_next (hnext : r.next h.loader l = some r') :
    Bounded h r n (l :: ls) ↔
      r.place.Fits ∧ Bounded h r' (n + (h.loaded (r.block l).toList).length) ls := by
  have hblocks : n + (h.loaded (r.blocks h.loader (l :: ls))).length =
      n + (h.loaded (r.block l).toList).length +
        (h.loaded (r'.blocks h.loader ls)).length := by
    rw [Reader.blocks, hnext]
    simp only [Host.loaded, List.filterMap_append, List.length_append]
    omega
  constructor
  · intro hb
    refine ⟨hb.values [] r List.nil_prefix rfl, ?_, ?_⟩
    · intro pre r'' hpre hreach
      refine hb.values (l :: pre) r'' (List.cons_prefix_cons.mpr ⟨rfl, hpre⟩) ?_
      rwa [Reader.reach, hnext]
    · rw [← hblocks]
      exact hb.plugins
  · rintro ⟨hfits, hb⟩
    refine ⟨?_, ?_⟩
    · intro pre r'' hpre hreach
      cases pre with
      | nil =>
        obtain rfl := Option.some.inj hreach
        exact hfits
      | cons l' pre =>
        obtain ⟨rfl, htail⟩ := List.cons_prefix_cons.mp hpre
        rw [Reader.reach, hnext] at hreach
        exact hb.values pre r'' htail hreach
    · rw [hblocks]
      exact hb.plugins

theorem Bounded.start (hb : Bounded h r n ls) : r.place.Fits ∧ n ≤ maxPlugins :=
  ⟨hb.values [] r List.nil_prefix rfl, (Nat.le_add_right _ _).trans hb.plugins⟩

theorem read_eq_wild {ps : List α} {cs : List (σ × List Text)} (hfits : r.place.Fits)
    (hps : ps.length ≤ maxPlugins) :
    r.read h ps cs ls = .wild ↔ ¬ Bounded h r ps.length ls := by
  induction ls generalizing r ps cs with
  | nil =>
    refine iff_of_false (by simp [Reader.read]) (not_not.mpr ?_)
    exact bounded_nil.mpr ⟨hfits, hps⟩
  | cons l ls ih =>
    rw [Reader.read]
    cases hnext : r.next h.loader l with
    | none =>
      refine iff_of_false (by simp) (not_not.mpr ?_)
      exact (bounded_of_reject hnext).mpr ⟨hfits, hps⟩
    | some r' =>
      dsimp only
      rw [bounded_of_next hnext, and_iff_right hfits]
      by_cases hroom : r'.place.Fits ∧
          (ps ++ h.loaded (r.block l).toList).length ≤ maxPlugins
      · rw [if_pos hroom, ih hroom.1 hroom.2, List.length_append]
      · rw [if_neg hroom]
        refine iff_of_true rfl fun hb => hroom ?_
        rw [List.length_append]
        exact hb.start

/-- Every store of the parser stays inside `argv` and `plugins` exactly when the file asks
for no more than ten values in a block and loads no more than `maxPlugins` plugins. -/
theorem sparse_inside_arrays (h : Host δ σ α) (junk : Sparser σ α) (content : Text) :
    sparse h junk (some content) ≠ .wild ↔
      Bounded h ⟨.outside, junk.first, junk.remain⟩ 0 (confPieces content) := by
  have hwild : Reader.read h ⟨.outside, junk.first, junk.remain⟩ [] [] (confPieces content) =
      .wild ↔ ¬ Bounded h ⟨.outside, junk.first, junk.remain⟩ 0 (confPieces content) :=
    read_eq_wild trivial (Nat.zero_le _)
  rw [sparse_eq_read, ne_eq, hwild, not_not]

/-- Eleven values in one block, and six blocks that load. -/
theorem sparse_leaves_arrays :
    sparse sampleHost ⟨.none, 0, [], [], 0, fun _ => [], none, [], []⟩
      (some (str "<m\n!v\n-a\n-a\n-a\n-a\n-a\n-a\n-a\n-a\n-a\n-a\n-a\n>\n")) = .wild ∧
    sparse sampleHost ⟨.none, 0, [], [], 0, fun _ => [], none, [], []⟩
      (some (str "<m\n>\n<m\n>\n<m\n>\n<m\n>\n<m\n>\n<m\n>\n")) = .wild := by
  rw [sparse_eq_read, sparse_eq_read]
  exact ⟨rfl, rfl⟩

end MonitoringAgent
