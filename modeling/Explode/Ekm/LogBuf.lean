import Explode.Lib.ByteStream

/-!
# The log buffer of the kernel module

The log is a chain of pages. A page holds what is left of it after the link to
the next page and the count of its bytes, and data that does not fit goes on in
a new page.
-/

namespace Explode.Ekm

open ByteStream

structure Pointer where
  addr : Nat
  bytes : Bytes
  deriving DecidableEq, Repr

def Pointer.invalid (p : Pointer) : Bool := p.addr ≤ 0x1000

def logDataSize : Nat := 4096 - 4 - 4

structure LogBuf where
  pages : List Bytes
  size : Int
  deriving DecidableEq, Repr

namespace LogBuf

variable (b : LogBuf)

def empty : LogBuf := ⟨[], 0⟩

def addLogPage : List Bytes → List Bytes
  | [] => [[]]
  | cur :: older => if logDataSize ≤ cur.length then [] :: cur :: older else cur :: older

def copyToPage (data : Bytes) : List Bytes → List Bytes
  | [] => []
  | cur :: older => (cur ++ data) :: older

def bytesAvailable (pages : List Bytes) : Nat := logDataSize - (pages.headD []).length

/-- The loop of `log_add_buf`, with a bound on its passes. -/
def copyLoop : Nat → LogBuf → Bytes → LogBuf
  | 0, b, _ => b
  | fuel + 1, b, data =>
    if data = [] then b
    else
      let pages := addLogPage b.pages
      let copyBytes := min data.length (bytesAvailable pages)
      copyLoop fuel ⟨copyToPage (data.take copyBytes) pages, b.size + copyBytes⟩
        (data.drop copyBytes)

/-- `log_add_buf` for all the bytes behind a pointer. Each pass copies at least one of them. -/
def logAddBuf (data : Pointer) : LogBuf :=
  if data.invalid then b else copyLoop data.bytes.length b data.bytes

def onStack (bytes : Bytes) : Pointer := ⟨0xC0000000, bytes⟩

def logAddInt (num : UInt32) : LogBuf := b.logAddBuf (onStack (word num))

def logAddInt8 (num : UInt64) : LogBuf :=
  b.logAddBuf (onStack (word num.toUInt32 ++ word (num >>> 32).toUInt32))

/-- `log_add_str`. The string is the bytes before the null byte. -/
def logAddStr (s : Pointer) : LogBuf :=
  (b.logAddInt (UInt32.ofNat s.bytes.length)).logAddBuf s

/-- `log_add_sized_buf`. A length with the sign bit is negative. -/
def logAddSizedBuf (buf : Pointer) : LogBuf :=
  let len := UInt32.ofNat buf.bytes.length
  if 0 < len.toNat ∧ len.toNat < 2147483648 then (b.logAddInt len).logAddBuf buf
  else b.logAddInt 0

/-- What the pages hold, from `ekm_log_start` on. -/
def contents : Bytes := b.pages.reverse.flatten

/-- `copy_log_buffer`: the bytes and their number, unless the buffer of the caller is too small. -/
def copyLogBuffer (size : Int) : Option (Bytes × LogBuf) :=
  if size < b.size then none else some (b.contents, empty)

structure WellFormed (b : LogBuf) : Prop where
  size : b.size = b.contents.length
  bounded : ∀ page ∈ b.pages, page.length ≤ logDataSize

instance (b : LogBuf) : Decidable b.WellFormed :=
  decidable_of_iff (b.size = b.contents.length ∧ ∀ page ∈ b.pages, page.length ≤ logDataSize)
    ⟨fun h => ⟨h.1, h.2⟩, fun h => ⟨h.1, h.2⟩⟩

theorem empty_wellFormed : empty.WellFormed := by decide

section
variable {b : LogBuf}

theorem addLogPage_cons (pages : List Bytes) (hBounded : ∀ p ∈ pages, p.length ≤ logDataSize) :
    ∃ cur older, addLogPage pages = cur :: older ∧ cur.length < logDataSize ∧
      (∀ p ∈ older, p.length ≤ logDataSize) ∧
      (cur :: older).reverse.flatten = pages.reverse.flatten := by
  cases pages with
  | nil => exact ⟨[], [], rfl, by decide, by simp, by simp⟩
  | cons cur older =>
    rw [addLogPage]
    split_ifs with hFull
    · exact ⟨[], cur :: older, rfl, by decide, hBounded, by simp⟩
    · exact ⟨cur, older, rfl, by omega, fun p hp => hBounded p (by simp [hp]), rfl⟩

theorem copyLoop_spec (fuel : Nat) (data : Bytes) (h : b.WellFormed) (hFuel : data.length ≤ fuel) :
    (copyLoop fuel b data).WellFormed ∧
      (copyLoop fuel b data).contents = b.contents ++ data := by
  induction fuel generalizing b data with
  | zero =>
    obtain rfl : data = [] := List.length_eq_zero_iff.mp (by omega)
    exact ⟨h, (List.append_nil _).symm⟩
  | succ fuel ih =>
    rw [copyLoop]
    split_ifs with hNil
    · subst hNil
      exact ⟨h, (List.append_nil _).symm⟩
    obtain ⟨cur, older, hPages, hRoom, hOlder, hContents⟩ := addLogPage_cons b.pages h.bounded
    have hLength : 0 < data.length := List.length_pos_iff.mpr hNil
    have hAvailable : bytesAvailable (cur :: older) = logDataSize - cur.length := rfl
    simp only [hPages, hAvailable]
    obtain ⟨n, hn⟩ : ∃ n, n = min data.length (logDataSize - cur.length) := ⟨_, rfl⟩
    have hPositive : 0 < n := by omega
    have hBytes : (copyToPage (data.take n) (cur :: older)).reverse.flatten =
        b.contents ++ data.take n := by
      rw [contents, ← hContents]
      simp [copyToPage]
    have hNext : (LogBuf.mk (copyToPage (data.take n) (cur :: older)) (b.size + n)).WellFormed := by
      refine ⟨?_, ?_⟩
      · rw [contents, hBytes, h.size, List.length_append, List.length_take]
        push_cast
        omega
      · intro p hp
        rcases List.mem_cons.mp hp with rfl | hp
        · rw [List.length_append, List.length_take]
          omega
        · exact hOlder p hp
    obtain ⟨hWF, hEnd⟩ := ih (data.drop n) hNext (by rw [List.length_drop]; omega)
    rw [← hn]
    refine ⟨hWF, hEnd.trans ?_⟩
    rw [contents, hBytes, List.append_assoc, List.take_append_drop]

structure Adds (b b' : LogBuf) (bytes : Bytes) : Prop where
  wellFormed : b'.WellFormed
  contents : b'.contents = b.contents ++ bytes

theorem Adds.trans {b' b'' : LogBuf} {bytes bytes' : Bytes} (h : b.Adds b' bytes)
    (h' : b'.Adds b'' bytes') : b.Adds b'' (bytes ++ bytes') :=
  ⟨h'.wellFormed, by rw [h'.contents, h.contents, List.append_assoc]⟩

theorem WellFormed.adds_nil (h : b.WellFormed) : b.Adds b [] := ⟨h, (List.append_nil _).symm⟩

theorem logAddBuf_adds (h : b.WellFormed) {data : Pointer} (hValid : data.invalid = false) :
    b.Adds (b.logAddBuf data) data.bytes := by
  have hSpec := copyLoop_spec data.bytes.length data.bytes h (Nat.le_refl _)
  rw [logAddBuf, hValid]
  exact ⟨hSpec.1, hSpec.2⟩

theorem logAddInt_adds (h : b.WellFormed) (num : UInt32) : b.Adds (b.logAddInt num) (word num) :=
  have hStack : (onStack (word num)).invalid = false := rfl
  logAddBuf_adds h hStack

theorem foldl_logAddInt_adds (nums : List UInt32) (h : b.WellFormed) :
    b.Adds (nums.foldl logAddInt b) (nums.flatMap word) := by
  induction nums generalizing b with
  | nil => exact h.adds_nil
  | cons num rest ih =>
    have hFirst := logAddInt_adds h num
    exact hFirst.trans (ih hFirst.wellFormed)

theorem logAddSizedBuf_adds (h : b.WellFormed) {buf : Pointer}
    (hLength : buf.bytes.length < 2147483648) (hValid : buf.bytes ≠ [] → buf.invalid = false) :
    b.Adds (b.logAddSizedBuf buf) (word (UInt32.ofNat buf.bytes.length) ++ buf.bytes) := by
  have hLen : (UInt32.ofNat buf.bytes.length).toNat = buf.bytes.length :=
    UInt32.toNat_ofNat_of_lt' (Nat.lt_trans hLength (by decide))
  rw [logAddSizedBuf]
  by_cases hNil : buf.bytes = []
  · rw [hNil]
    simpa using logAddInt_adds h 0
  · have hPositive : 0 < buf.bytes.length := List.length_pos_iff.mpr hNil
    rw [if_pos (by rw [hLen]; exact ⟨hPositive, hLength⟩)]
    have hFirst := logAddInt_adds h (UInt32.ofNat buf.bytes.length)
    exact hFirst.trans (logAddBuf_adds hFirst.wellFormed (hValid hNil))

theorem copyLogBuffer_eq (h : b.WellFormed) {size : Int} (hSize : b.contents.length ≤ size) :
    b.copyLogBuffer size = some (b.contents, empty) := by
  rw [copyLogBuffer, if_neg]
  rw [h.size]
  omega

end

end LogBuf

end Explode.Ekm
