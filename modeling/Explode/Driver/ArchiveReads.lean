import Explode.Driver.ArchiveCode
import Explode.Driver.Marshal
import Explode.Lib.Loop

/-!
# Reading back what was written

A reader takes the bytes of a value from the front of what has not been read
yet, whatever follows them.
-/

namespace Explode.Driver

namespace Archive

def Ahead (ar : Archive) (bytes : Bytes) : Prop :=
  ∃ front, ar.buf = front ++ bytes ∧ ar.rd = front.length

def skip (ar : Archive) (n : Nat) : Archive := { ar with rd := ar.rd + n }

theorem skip_skip (ar : Archive) (m n : Nat) : (ar.skip m).skip n = ar.skip (m + n) := by
  rw [skip, skip, skip, Nat.add_assoc]

theorem Ahead.skip {ar : Archive} {bytes rest : Bytes} (h : ar.Ahead (bytes ++ rest)) :
    (ar.skip bytes.length).Ahead rest := by
  obtain ⟨front, hBuf, hRd⟩ := h
  refine ⟨front ++ bytes, ?_, ?_⟩
  · rw [List.append_assoc]
    exact hBuf
  · rw [List.length_append, ← hRd]
    rfl

end Archive

def Reads {α : Type} (f : Archive → FsResult (α × Archive)) (bytes : Bytes) (a : α) : Prop :=
  ∀ ar rest, ar.Ahead (bytes ++ rest) → f ar = .ok (a, ar.skip bytes.length)

section
variable {α β : Type} {f : Archive → FsResult (α × Archive)} {bytes bytes' : Bytes}
  {a : α} {b : β}

theorem Reads.done (a : α) : Reads (fun ar => .ok (a, ar)) [] a := fun _ _ _ => rfl

theorem Reads.bind (h : Reads f bytes a) {g : α × Archive → FsResult (β × Archive)}
    (h' : Reads (fun ar => g (a, ar)) bytes' b) :
    Reads (fun ar => f ar >>= g) (bytes ++ bytes') b := by
  intro ar rest hAhead
  rw [List.append_assoc] at hAhead
  have hFirst := h ar (bytes' ++ rest) hAhead
  have hSecond := h' (ar.skip bytes.length) rest hAhead.skip
  simp only [hFirst]
  rw [List.length_append, ← Archive.skip_skip]
  exact hSecond

theorem Reads.last (h : Reads f bytes a) {g : α × Archive → FsResult (β × Archive)}
    (h' : Reads (fun ar => g (a, ar)) [] b) : Reads (fun ar => f ar >>= g) bytes b := by
  have hBoth := h.bind h'
  rwa [List.append_nil] at hBoth

theorem get_ahead {ar : Archive} {rest : Bytes} (h : ar.Ahead (bytes ++ rest)) {n : Nat}
    (hn : bytes.length = n) : ar.get n = some (bytes, ar.skip n) := by
  obtain ⟨front, hBuf, hRd⟩ := h
  have hBound : ar.rd + n ≤ ar.buf.length := by
    rw [hBuf, hRd, ← hn]
    simp
  rw [Archive.get, if_pos hBound, hBuf, hRd, List.drop_left, ← hn, List.take_left, Archive.skip,
    hRd, hBuf]

theorem get_reads {n : Nat} (hn : bytes.length = n) :
    Reads (fun ar => Archive.read (ar.get n)) bytes bytes := by
  intro ar rest h
  simp only [get_ahead h hn, hn]
  rfl

theorem getInt_reads {v : Int} (hLow : -2147483648 ≤ v) (hHigh : v < 2147483648) :
    Reads (fun ar => Archive.read ar.getInt) (intBytes v) v := by
  intro ar rest h
  simp only [Archive.getInt, get_ahead h (length_intBytes v), Option.map_some,
    intOf_intBytes hLow hHigh]
  rfl

theorem readNat_reads {v : Nat} (hv : v < 2147483648) : Reads Archive.readNat (intBytes v) v := by
  refine Reads.last (getInt_reads (by omega) (by omega)) ?_
  intro ar rest _
  simp only [Int.toNat_natCast]
  exact if_neg (by omega)

theorem getUnsigned_ahead {ar : Archive} {v : Nat} {rest : Bytes} (hv : v < 4294967296)
    (h : ar.Ahead (intBytes v ++ rest)) : ar.getUnsigned = some (v, ar.skip 4) := by
  have hValue : unsignedOf (intBytes v) = v := by
    have := unsignedOf_intBytes v
    omega
  rw [Archive.getUnsigned, get_ahead h (length_intBytes v), Option.map_some, hValue]

theorem getUnsigned_reads {v : Nat} (hv : v < 4294967296) :
    Reads (fun ar => Archive.read ar.getUnsigned) (intBytes v) v := by
  intro ar rest h
  simp only [getUnsigned_ahead hv h]
  rfl

theorem getWord_reads (w : Word) : Reads (fun ar => Archive.read ar.getWord) (wordBytes w) w := by
  intro ar rest h
  have hValue : (fun i : Fin 4 => (wordBytes w).getD i 0) = w := by
    funext i
    rw [wordBytes, List.getD, List.getElem?_ofFn, dif_pos i.isLt]
    rfl
  simp only [Archive.getWord, get_ahead h (length_wordBytes w), Option.map_some, hValue,
    length_wordBytes]
  rfl

theorem getString_reads {s : Bytes} (hs : s.length < 4294967296) :
    Reads (fun ar => Archive.read ar.getString) (intBytes s.length ++ s) s := by
  intro ar rest h
  rw [List.append_assoc] at h
  have hBytes := get_ahead h.skip (n := s.length) rfl
  rw [length_intBytes, Archive.skip_skip] at hBytes
  simp only [Archive.getString, getUnsigned_ahead hs h, Option.bind_some, hBytes,
    List.length_append, length_intBytes]
  rfl

end

/-- What a reader returns has the property unless it makes the archive longer. -/
def Grows {α : Type} (f : Archive → FsResult (α × Archive)) (P : α → Prop) : Prop :=
  ∀ ar a ar', f ar = .ok (a, ar') →
    ar.buf.length ≤ ar'.buf.length ∧ (ar'.buf.length = ar.buf.length → P a)

section
variable {α β : Type} {f : Archive → FsResult (α × Archive)} {P : α → Prop} {Q : β → Prop}

theorem Grows.done {a : α} (h : P a) : Grows (fun ar => .ok (a, ar)) P := by
  rintro ar _ _ ⟨⟩
  exact ⟨Nat.le_refl _, fun _ => h⟩

theorem Grows.imp (h : Grows f P) {P' : α → Prop} (hImp : ∀ a, P a → P' a) : Grows f P' :=
  fun ar a ar' hRun => ⟨(h ar a ar' hRun).1, fun hEq => hImp a ((h ar a ar' hRun).2 hEq)⟩

theorem Grows.error (e : FsFailure) : Grows (fun _ => .error e) P := nofun

theorem Grows.bind (h : Grows f P) {g : α × Archive → FsResult (β × Archive)}
    (h' : ∀ a, Grows (fun ar => g (a, ar)) fun b => P a → Q b) :
    Grows (fun ar => f ar >>= g) Q := by
  intro ar b ar' hRun
  obtain ⟨⟨a, ar₁⟩, hFirst, hRest⟩ := Loop.bind_eq_ok hRun
  obtain ⟨hLe, hP⟩ := h ar a ar₁ hFirst
  obtain ⟨hLe', hQ⟩ := h' a ar₁ b ar' hRest
  exact ⟨hLe.trans hLe', fun hEq => hQ (by omega) (hP (by omega))⟩

theorem get_buf {ar : Archive} {n : Nat} {r : Bytes × Archive} (h : ar.get n = some r) :
    r.2.buf = ar.buf := by
  rw [Archive.get] at h
  split_ifs at h
  cases h
  rfl

theorem read_grows {g : Archive → Option (α × Archive)}
    (h : ∀ ar r, g ar = some r → r.2.buf = ar.buf) :
    Grows (fun ar => Archive.read (g ar)) fun _ => True := by
  intro ar a ar' hRead
  dsimp only at hRead
  cases hGet : g ar with
  | none =>
    rw [hGet] at hRead
    cases hRead
  | some r =>
    rw [hGet] at hRead
    cases hRead
    rw [h ar _ hGet]
    exact ⟨Nat.le_refl _, fun _ => trivial⟩

theorem get_grows (n : Nat) : Grows (fun ar => Archive.read (ar.get n)) fun _ => True :=
  read_grows fun _ _ => get_buf

theorem map_get_grows (n : Nat) (value : Bytes → α) :
    Grows (fun ar => Archive.read ((ar.get n).map fun r => (value r.1, r.2))) fun _ => True := by
  refine read_grows fun ar r h => ?_
  obtain ⟨r', hGet, rfl⟩ := Option.map_eq_some_iff.mp h
  exact get_buf hGet

theorem getInt_grows : Grows (fun ar => Archive.read ar.getInt) fun _ => True :=
  map_get_grows 4 intOf

theorem getUnsigned_grows : Grows (fun ar => Archive.read ar.getUnsigned) fun _ => True :=
  map_get_grows 4 unsignedOf

theorem getWord_grows : Grows (fun ar => Archive.read ar.getWord) fun _ => True :=
  map_get_grows 4 fun bytes (i : Fin 4) => bytes.getD i 0

theorem getString_grows : Grows (fun ar => Archive.read ar.getString) fun _ => True := by
  refine read_grows fun ar r h => ?_
  obtain ⟨n, hLength, hGet⟩ := Option.bind_eq_some_iff.mp h
  obtain ⟨r', hFour, rfl⟩ := Option.map_eq_some_iff.mp hLength
  exact (get_buf hGet).trans (get_buf hFour)

theorem readNat_grows : Grows Archive.readNat fun _ => True := by
  refine getInt_grows.bind fun v => ?_
  dsimp only
  split_ifs
  · exact Grows.error _
  · exact Grows.done fun _ => trivial

end

end Explode.Driver
