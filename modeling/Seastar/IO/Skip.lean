import Seastar.IO.InputStream

/-!
`data_source_impl::skip` and `input_stream::skip` of `core/iostream-impl.hh`, round by round. A
source delivers its buffers, of any lengths, and empty ones after the last; at the end of the
source a round of the loop skips nothing.
-/

namespace Seastar

namespace Skip

variable {α : Type}

/-- `get()` of a source with these buffers. -/
def get : List (List α) → List α × List (List α)
  | [] => ([], [])
  | buffer :: source => (buffer, source)

/-- `data_source_impl::skip`: the buffer that it returns, and the source. `none` when the loop has
not ended after as many rounds. -/
def dataSourceSkip : Nat → Nat → List (List α) → Option (List α × List (List α))
  | 0, _, _ => none
  | rounds + 1, n, source =>
    let (buffer, source) := get source
    if n ≤ buffer.length then some (buffer.drop n, source)
    else dataSourceSkip rounds (n - buffer.length) source

/-- `input_stream::skip`: `_buf`, and the source. -/
def inputStreamSkip (rounds n : Nat) (buf : List α) (source : List (List α)) :
    Option (List α × List (List α)) :=
  let skipBuf := min n buf.length
  if n - skipBuf = 0 then some (buf.drop skipBuf, source)
  else dataSourceSkip rounds (n - skipBuf) source

variable {rounds n : Nat} {buf : List α} {source : List (List α)}

/-! ## The loop -/

theorem get_append (source : List (List α)) :
    (get source).1 ++ (get source).2.flatten = source.flatten := by
  cases source with
  | nil => rfl
  | cons buffer source => rfl

/-- The loop returns when it has skipped its bytes, which were there. -/
theorem dataSourceSkip_some {buf' : List α} {source' : List (List α)}
    (h : dataSourceSkip rounds n source = some (buf', source')) :
    n ≤ source.flatten.length ∧ buf' ++ source'.flatten = source.flatten.drop n := by
  induction rounds generalizing n source with
  | zero => cases h
  | succ rounds ih =>
    rw [dataSourceSkip] at h
    dsimp only at h
    rw [← get_append source, List.length_append]
    split at h
    · rename_i hle
      obtain ⟨rfl, rfl⟩ := Prod.mk.inj (Option.some.inj h)
      constructor
      · exact Nat.le_trans hle (Nat.le_add_right _ _)
      · rw [List.drop_append_of_le_length hle]
    · rename_i hlt
      obtain ⟨hle, hrest⟩ := ih h
      constructor
      · omega
      · rw [hrest, List.drop_append, List.drop_eq_nil_of_le (Nat.le_of_not_le hlt),
          List.nil_append]

/-- Bytes that are there are skipped with a round for each buffer, and one for a skip of none at the
end. -/
theorem dataSourceSkip_returns (hn : n ≤ source.flatten.length) :
    ∃ r, dataSourceSkip (source.length + 1) n source = some r := by
  induction source generalizing n with
  | nil =>
    obtain rfl := Nat.le_zero.mp hn
    exact ⟨_, rfl⟩
  | cons buffer source ih =>
    rw [List.flatten_cons, List.length_append] at hn
    rw [List.length_cons, dataSourceSkip, get]
    dsimp only
    split
    · exact ⟨_, rfl⟩
    · exact ih (by omega)

/-- The loop of `data_source_impl::skip` ends exactly when the source has the bytes. -/
theorem dataSourceSkip_iff :
    (∃ rounds buf' source', dataSourceSkip rounds n source = some (buf', source') ∧
        buf' ++ source'.flatten = source.flatten.drop (min n source.flatten.length)) ↔
      n ≤ source.flatten.length := by
  constructor
  · rintro ⟨rounds, buf', source', h, -⟩
    exact (dataSourceSkip_some h).1
  · intro hn
    obtain ⟨⟨buf', source'⟩, h⟩ := dataSourceSkip_returns hn
    refine ⟨_, buf', source', h, ?_⟩
    rw [Nat.min_eq_left hn]
    exact (dataSourceSkip_some h).2

/-- ... and that of `input_stream::skip` when the stream has. -/
theorem inputStreamSkip_iff :
    (∃ rounds buf' source', inputStreamSkip rounds n buf source = some (buf', source') ∧
        buf' ++ source'.flatten =
          (buf ++ source.flatten).drop (min n (buf ++ source.flatten).length)) ↔
      n ≤ (buf ++ source.flatten).length := by
  rw [List.length_append]
  rcases Nat.lt_or_ge buf.length n with hlt | hle
  · have hmin : min n buf.length = buf.length := Nat.min_eq_right (Nat.le_of_lt hlt)
    have hskip : ∀ rounds, inputStreamSkip rounds n buf source =
        dataSourceSkip rounds (n - buf.length) source := by
      intro rounds
      rw [inputStreamSkip, hmin, if_neg (by omega)]
    have hdrop : (buf ++ source.flatten).drop (min n (buf.length + source.flatten.length)) =
        source.flatten.drop (min (n - buf.length) source.flatten.length) := by
      rw [List.drop_append, List.drop_eq_nil_of_le (by omega), List.nil_append]
      congr 1
      omega
    simp only [hskip, hdrop, dataSourceSkip_iff]
    omega
  · have hmin : min n buf.length = n := Nat.min_eq_left hle
    have hskip : inputStreamSkip 0 n buf source = some (buf.drop n, source) := by
      rw [inputStreamSkip, hmin, if_pos (Nat.sub_self n)]
    refine iff_of_true ⟨0, _, _, hskip, ?_⟩ (Nat.le_trans hle (Nat.le_add_right _ _))
    rw [Nat.min_eq_left (by omega), List.drop_append_of_le_length hle]

/-- For every source, however it is cut into buffers, every buffer of the stream and every `n`: both
loops reach their stop condition, having dropped what there is of `n` bytes, exactly when there are
`n` bytes. -/
theorem skip_ends_iff (n : Nat) (buf : List α) (source : List (List α)) :
    ((∃ rounds buf' source', dataSourceSkip rounds n source = some (buf', source') ∧
        buf' ++ source'.flatten = source.flatten.drop (min n source.flatten.length)) ↔
      n ≤ source.flatten.length) ∧
    ((∃ rounds buf' source', inputStreamSkip rounds n buf source = some (buf', source') ∧
        buf' ++ source'.flatten =
          (buf ++ source.flatten).drop (min n (buf ++ source.flatten).length)) ↔
      n ≤ (buf ++ source.flatten).length) :=
  ⟨dataSourceSkip_iff, inputStreamSkip_iff⟩

/-- Four bytes are to be skipped where three are left. -/
theorem skip_past_end :
    ¬ ∃ rounds buf' source', inputStreamSkip rounds 4 ['a'] [['b'], ['c']] = some (buf', source') ∧
      buf' ++ source'.flatten = (['a', 'b', 'c'] : List Char).drop (min 4 3) := by
  rintro ⟨rounds, buf', source', h, -⟩
  have hle := (dataSourceSkip_some h).1
  exact absurd hle (by decide)

end Skip

end Seastar
