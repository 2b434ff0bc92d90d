import Mathlib.Data.List.Basic

/-!
# Readers of byte streams

A reader takes a value from the front of a row of bytes. It reads a word for a
value if it takes exactly the word, whatever follows.
-/

abbrev Bytes := List UInt8

namespace ByteStream

abbrev Reader (α : Type) := Bytes → Option (α × Bytes)

section
variable {α β : Type}

def Reads (f : Reader α) (bytes : Bytes) (a : α) : Prop :=
  ∀ rest, f (bytes ++ rest) = some (a, rest)

def done (a : α) : Reader α := fun bytes => some (a, bytes)

def andThen (f : Reader α) (g : α → Reader β) : Reader β := fun bytes =>
  (f bytes).bind fun r => g r.1 r.2

theorem reads_done (a : α) : Reads (done a) [] a := fun _ => rfl

theorem Reads.andThen {f : Reader α} {g : α → Reader β} {bytes bytes' : Bytes} {a : α} {b : β}
    (h : Reads f bytes a) (h' : Reads (g a) bytes' b) :
    Reads (andThen f g) (bytes ++ bytes') b := by
  intro rest
  rw [List.append_assoc, ByteStream.andThen, h, Option.bind_some]
  exact h' rest

theorem Reads.andThen_done {f : Reader α} {g : α → β} {bytes : Bytes} {a : α}
    (h : Reads f bytes a) : Reads (ByteStream.andThen f fun a => done (g a)) bytes (g a) := by
  intro rest
  rw [ByteStream.andThen, h, Option.bind_some]
  rfl

end

def take (n : Nat) : Reader Bytes := fun bytes =>
  if n ≤ bytes.length then some (bytes.take n, bytes.drop n) else none

theorem reads_take (bytes : Bytes) : Reads (take bytes.length) bytes bytes := by
  intro rest
  rw [take, if_pos (by simp)]
  simp

def value : Bytes → Nat
  | [] => 0
  | b :: rest => b.toNat + 256 * value rest

def word (w : UInt32) : Bytes :=
  [UInt8.ofNat w.toNat, UInt8.ofNat (w.toNat / 256), UInt8.ofNat (w.toNat / 65536),
    UInt8.ofNat (w.toNat / 16777216)]

theorem length_word (w : UInt32) : (word w).length = 4 := rfl

theorem value_word (w : UInt32) : value (word w) = w.toNat := by
  have hBound := w.toNat_lt
  simp only [word, value, UInt8.toNat_ofNat']
  omega

theorem word_of_append {w : UInt32} {rest front back : Bytes} (h : word w ++ rest = front ++ back)
    (hFront : 4 ≤ front.length) : ∃ front', front = word w ++ front' := by
  obtain ⟨more, hMore, -⟩ | ⟨more, hMore, -⟩ := List.append_eq_append_iff.mp h
  · exact ⟨more, hMore⟩
  · have hLength := congrArg List.length hMore
    rw [List.length_append, length_word] at hLength
    obtain rfl : more = [] := List.length_eq_zero_iff.mp (by omega)
    exact ⟨[], by rw [hMore]; simp⟩

def readWord : Reader UInt32 := andThen (take 4) fun bytes => done (UInt32.ofNat (value bytes))

theorem reads_word (w : UInt32) : Reads readWord (word w) w := by
  have h := Reads.andThen_done (g := fun bytes => UInt32.ofNat (value bytes)) (reads_take (word w))
  rwa [value_word, UInt32.ofNat_toNat] at h

theorem readWord_short {bytes : Bytes} (h : bytes.length < 4) : readWord bytes = none := by
  rw [readWord, andThen, take, if_neg (by omega)]
  rfl

def readCounted : Reader Bytes := andThen readWord fun n => take n.toNat

theorem reads_counted {bytes : Bytes} (h : bytes.length < 4294967296) :
    Reads readCounted (word (UInt32.ofNat bytes.length) ++ bytes) bytes := by
  refine (reads_word _).andThen ?_
  rw [UInt32.toNat_ofNat_of_lt' h]
  exact reads_take bytes

def signed (n : Int) : Bytes := word (Int32.ofInt n).toUInt32

def IsInt (n : Int) : Prop := -2147483648 ≤ n ∧ n < 2147483648

instance (n : Int) : Decidable (IsInt n) := inferInstanceAs (Decidable (_ ∧ _))

def readSigned : Reader Int := andThen readWord fun w => done w.toInt32.toInt

theorem reads_signed {n : Int} (h : IsInt n) : Reads readSigned (signed n) n := by
  have hRead := Reads.andThen_done (g := fun w : UInt32 => w.toInt32.toInt)
    (reads_word (Int32.ofInt n).toUInt32)
  have hBack : (Int32.ofInt n).toUInt32.toInt32.toInt = n := Int32.toInt_ofInt_of_le h.1 h.2
  rwa [hBack] at hRead

def times {α : Type} (f : Reader α) : Nat → Reader (List α)
  | 0 => done []
  | n + 1 => andThen f fun a => andThen (times f n) fun rest => done (a :: rest)

theorem reads_times {α β : Type} {f : Reader β} {write : α → Bytes} {g : α → β}
    {values : List α} (h : ∀ a ∈ values, Reads f (write a) (g a)) :
    Reads (times f values.length) (values.flatMap write) (values.map g) := by
  induction values with
  | nil => exact reads_done []
  | cons a rest ih =>
    have hRest := ih fun b hb => h b (List.mem_cons_of_mem a hb)
    exact (h a List.mem_cons_self).andThen hRest.andThen_done

end ByteStream
