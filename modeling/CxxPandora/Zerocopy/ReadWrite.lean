import Mathlib.Data.List.Basic

/-!
# A file copy by `read` and `write`

`linux/zerocopy/readwrite`. The destination is opened without `O_TRUNC`, and the loop does not look
at how many bytes `write` has written. `copy_iff` says for which lengths and counts every copy is
exact: no write is short, and the destination was no longer than the source.
-/

namespace CxxPandora.Zerocopy

/-! ## The model -/

/-- The size of `buf`. -/
def bufSize : ℕ := 4096 * 1000

/-- The counts that `read` and `write` may return in the passes of the loop, for a source with
`length` bytes left: each takes a byte at least, `read` no more than the buffer holds and there are,
and `write` no more than it is given. The last `read` returns 0. -/
def Allowed : ℕ → List (ℕ × ℕ) → Prop
  | length, [] => length = 0
  | length, (r, w) :: counts =>
    (0 < r ∧ r ≤ bufSize ∧ r ≤ length) ∧ (0 < w ∧ w ≤ r) ∧ Allowed (length - r) counts

/-- The counts of a copy of a source of that length: what each `read` and `write` returns. -/
structure Transfers (length : ℕ) where
  counts : List (ℕ × ℕ)
  allowed : Allowed length counts

/-- A file after bytes have been written at an offset. -/
def writeAt (file : List UInt8) (off : ℕ) (bytes : List UInt8) : List UInt8 :=
  file.take off ++ bytes ++ file.drop (off + bytes.length)

/-- The loop, from what is left of the source, the destination and its offset, over the counts:
`while ((n = read(fromfd, &buf, sizeof(buf))) > 0) write(tofd, &buf, n);`. -/
def copyLoop (src dst : List UInt8) (off : ℕ) : List (ℕ × ℕ) → List UInt8
  | [] => dst
  | (r, w) :: counts => copyLoop (src.drop r) (writeAt dst off (src.take w)) (off + w) counts

/-- The destination after `open` with `O_WRONLY | O_CREAT`: as it was, or empty. -/
def opened (prior : Option (List UInt8)) : List UInt8 := prior.getD []

/-- The destination after the copy. -/
def copy (src : List UInt8) (prior : Option (List UInt8)) (counts : List (ℕ × ℕ)) : List UInt8 :=
  copyLoop src (opened prior) 0 counts

/-! ## What is written -/

/-- The bytes that the writes write, one after the other. -/
def written (src : List UInt8) : List (ℕ × ℕ) → List UInt8
  | [] => []
  | (r, w) :: counts => src.take w ++ written (src.drop r) counts

/-- The loop leaves the destination up to its offset, what is written, and the rest. -/
theorem copyLoop_eq (src dst : List UInt8) {off : ℕ} {counts : List (ℕ × ℕ)}
    (h : Allowed src.length counts) (hoff : off ≤ dst.length) :
    copyLoop src dst off counts =
      dst.take off ++ written src counts ++ dst.drop (off + (written src counts).length) := by
  induction counts generalizing src dst off with
  | nil =>
    rw [copyLoop, written, List.append_nil, List.length_nil, Nat.add_zero, List.take_append_drop]
  | cons c counts ih =>
    obtain ⟨⟨-, -, hr⟩, ⟨-, hw⟩, hrest⟩ := h
    have hlen : (src.take c.2).length = c.2 := List.length_take_of_le (Nat.le_trans hw hr)
    have htake : (dst.take off).length = off := List.length_take_of_le hoff
    have hpre : (dst.take off ++ src.take c.2).length = off + c.2 := by
      rw [List.length_append, htake, hlen]
    rw [copyLoop, written, ih _ _ (by rwa [List.length_drop]) _, writeAt, hlen]
    · rw [List.take_left' hpre, List.length_append, hlen, ← List.drop_drop, List.drop_left' hpre,
        List.drop_drop, Nat.add_assoc]
      simp only [List.append_assoc]
    · rw [writeAt, List.length_append, hpre]
      exact Nat.le_add_right _ _

/-- The copy is what is written, and what was behind it. -/
theorem copy_eq {src : List UInt8} {counts : List (ℕ × ℕ)} (prior : Option (List UInt8))
    (h : Allowed src.length counts) :
    copy src prior counts =
      written src counts ++ (opened prior).drop (written src counts).length := by
  rw [copy, copyLoop_eq _ _ h (Nat.zero_le _), List.take_zero, List.nil_append, Nat.zero_add]

/-- No more is written than there is, and as much only when no write is short. -/
theorem length_written {src : List UInt8} {counts : List (ℕ × ℕ)} (h : Allowed src.length counts) :
    (written src counts).length ≤ src.length ∧
      ((written src counts).length = src.length → ∀ c ∈ counts, c.2 = c.1) := by
  induction counts generalizing src with
  | nil => exact ⟨Nat.zero_le _, fun _ _ hc => absurd hc List.not_mem_nil⟩
  | cons c counts ih =>
    obtain ⟨⟨-, -, hr⟩, ⟨-, hw⟩, hrest⟩ := h
    have hlen : (src.take c.2).length = c.2 := List.length_take_of_le (Nat.le_trans hw hr)
    have hdrop : (src.drop c.1).length = src.length - c.1 := List.length_drop
    have hdropped : Allowed (src.drop c.1).length counts := by rwa [hdrop]
    obtain ⟨hle, hfull⟩ := ih hdropped
    rw [hdrop] at hle hfull
    rw [written, List.length_append, hlen]
    refine ⟨by omega, fun heq => ?_⟩
    rintro d hd
    rcases List.mem_cons.mp hd with rfl | hmem
    · omega
    · exact hfull (by omega) d hmem

/-- When no write is short, the source is written. -/
theorem written_eq {src : List UInt8} {counts : List (ℕ × ℕ)} (h : Allowed src.length counts)
    (hfull : ∀ c ∈ counts, c.2 = c.1) : written src counts = src := by
  induction counts generalizing src with
  | nil => exact (List.length_eq_zero_iff.mp h).symm
  | cons c counts ih =>
    obtain ⟨-, -, hrest⟩ := h
    have hc := hfull c List.mem_cons_self
    rw [written, hc, ih (by rwa [List.length_drop]) fun d hd => hfull d (List.mem_cons_of_mem c hd),
      List.take_append_drop]

/-! ## The copies that are exact -/

/-- When no write is short and the destination was no longer than the source, the copy is exact. -/
theorem copy_eq_src {src : List UInt8} {prior : Option (List UInt8)} {counts : List (ℕ × ℕ)}
    (h : Allowed src.length counts) (hfull : ∀ c ∈ counts, c.2 = c.1)
    (hprior : (opened prior).length ≤ src.length) : copy src prior counts = src := by
  rw [copy_eq prior h, written_eq h hfull, List.drop_eq_nil_of_le hprior, List.append_nil]

/-- A copy over bytes that the source does not have is exact only then. -/
theorem full_of_copy_eq_src {src : List UInt8} {prior : Option (List UInt8)}
    {counts : List (ℕ × ℕ)} (h : Allowed src.length counts) (hnew : ∀ c ∈ opened prior, c ∉ src)
    (heq : copy src prior counts = src) :
    (∀ c ∈ counts, c.2 = c.1) ∧ (opened prior).length ≤ src.length := by
  obtain ⟨hle, hfull⟩ := length_written h
  rw [copy_eq prior h] at heq
  have hrest : (opened prior).drop (written src counts).length = [] := by
    refine List.eq_nil_iff_forall_not_mem.mpr fun c hc => ?_
    refine hnew c (List.mem_of_mem_drop hc) ?_
    rw [← heq]
    exact List.mem_append_right _ hc
  rw [hrest, List.append_nil] at heq
  have hlen : (written src counts).length = src.length := congrArg List.length heq
  exact ⟨hfull hlen, hlen ▸ List.drop_eq_nil_iff.mp hrest⟩

/-- With given lengths and counts, the destination is the source after every copy, whatever the
contents, if and only if no write is short and the destination was no longer than the source. -/
theorem copy_iff (length priorLength : ℕ) (t : Transfers length) :
    (∀ (src : List UInt8) (prior : Option (List UInt8)), src.length = length →
      (opened prior).length = priorLength → copy src prior t.counts = src) ↔
        (∀ c ∈ t.counts, c.2 = c.1) ∧ priorLength ≤ length := by
  constructor
  · intro h
    have hsrc : (List.replicate length (1 : UInt8)).length = length := List.length_replicate
    have hprior : (opened (some (List.replicate priorLength 2))).length = priorLength :=
      List.length_replicate
    have hnew : ∀ c ∈ opened (some (List.replicate priorLength 2)),
        c ∉ List.replicate length (1 : UInt8) := by
      intro c hc hmem
      have h2 : c = 2 := List.eq_of_mem_replicate hc
      have h1 : c = 1 := List.eq_of_mem_replicate hmem
      exact absurd (h1.symm.trans h2) (by decide)
    have hallowed : Allowed (List.replicate length (1 : UInt8)).length t.counts := by
      rw [hsrc]
      exact t.allowed
    obtain ⟨hfull, hle⟩ := full_of_copy_eq_src hallowed hnew (h _ _ hsrc hprior)
    rw [hsrc, hprior] at hle
    exact ⟨hfull, hle⟩
  · rintro ⟨hfull, hle⟩ src prior rfl rfl
    exact copy_eq_src t.allowed hfull hle

/-- A copy of one byte over two leaves the second of the two. -/
theorem copy_keeps_tail :
    ¬∀ (src : List UInt8) (prior : Option (List UInt8)) (t : Transfers src.length),
      copy src prior t.counts = src := by
  intro h
  have hcopy := h [1] (some [2, 2]) ⟨[(1, 1)], by decide, by decide, rfl⟩
  exact absurd hcopy (by decide)

end CxxPandora.Zerocopy
