import SimpleRedis.RpcContext

/-!
# The read buffer of a connection

`SimpleBuffer` is a string of fixed size with the valid bytes at its front. The
bytes behind them are zero whenever a callback can see them; the structure
carries that fact, so nothing that uses a buffer has to prove it again.
-/
namespace SimpleRedis

structure SimpleBuffer where
  buffer : List CChar
  dataSize : ℕ
  dataSize_le : dataSize ≤ buffer.length
  zero_fill : buffer.drop dataSize = List.replicate (buffer.length - dataSize) 0

namespace SimpleBuffer

/-- A fresh buffer after `resize(n)`. -/
def ofSize (n : ℕ) : SimpleBuffer where
  buffer := List.replicate n 0
  dataSize := 0
  dataSize_le := Nat.zero_le _
  zero_fill := by simp

/-- `size()`, the capacity of the buffer. -/
def size (b : SimpleBuffer) : ℕ := b.buffer.length

/-- The bytes received and not consumed. -/
def valid (b : SimpleBuffer) : List CChar := b.buffer.take b.dataSize

/-- `capacity - data_size`, the length that `handleRead` passes to `socket->read`. -/
def free (b : SimpleBuffer) : ℕ := b.size - b.dataSize

/-- `socket->read` behind the valid bytes, and the update of `data_size_`. The
socket holds `chunk` and gives at most what there is room for. -/
def fill (b : SimpleBuffer) (chunk : List CChar) : SimpleBuffer where
  buffer := b.valid ++ chunk.take b.free ++ b.buffer.drop (b.dataSize + (chunk.take b.free).length)
  dataSize := b.dataSize + (chunk.take b.free).length
  dataSize_le := by
    have := b.dataSize_le
    simp only [valid, free, size, List.length_append, List.length_take, List.length_drop]
    omega
  zero_fill := by
    have hle := b.dataSize_le
    have hlen : (b.valid ++ chunk.take b.free).length =
        b.dataSize + (chunk.take b.free).length := by
      simp only [valid, List.length_append, List.length_take]
      omega
    rw [List.drop_left' hlen, ← List.drop_drop, b.zero_fill, List.drop_replicate]
    congr 1
    simp only [valid, free, size, List.length_append, List.length_take, List.length_replicate]
    omega

def clear (b : SimpleBuffer) : SimpleBuffer := ofSize b.size

/-- `read(n)`: the `memmove` of what is left to the front, then the `memset`. -/
def read (b : SimpleBuffer) (n : ℕ) : SimpleBuffer :=
  if b.dataSize ≤ n then b.clear
  else
    { buffer := (b.buffer.drop n).take (b.dataSize - n) ++
        List.replicate (b.size - (b.dataSize - n)) 0
      dataSize := b.dataSize - n
      dataSize_le := by
        have := b.dataSize_le
        simp only [size, List.length_append, List.length_take, List.length_drop,
          List.length_replicate]
        omega
      zero_fill := by
        have hle := b.dataSize_le
        have hlen : ((b.buffer.drop n).take (b.dataSize - n)).length = b.dataSize - n := by
          simp only [List.length_take, List.length_drop]
          omega
        rw [List.drop_left' hlen]
        simp only [size, List.length_append, hlen, List.length_replicate]
        congr 1
        omega }

/-- What `handleRead` does with the count its callback returned. -/
def consume (b : SimpleBuffer) (consumed : ℕ) : SimpleBuffer := b.read (min consumed b.dataSize)

section Lemmas

variable (b : SimpleBuffer)

@[simp] theorem length_valid : b.valid.length = b.dataSize := by
  rw [valid, List.length_take, Nat.min_eq_left b.dataSize_le]

/-- A buffer is its valid bytes and zeros. -/
theorem buffer_eq : b.buffer = b.valid ++ List.replicate b.free 0 := by
  conv_lhs => rw [← List.take_append_drop b.dataSize b.buffer, b.zero_fill]
  rfl

theorem free_add_dataSize : b.free + b.dataSize = b.size := Nat.sub_add_cancel b.dataSize_le

@[simp] theorem valid_ofSize (n : ℕ) : (ofSize n).valid = [] := rfl

@[simp] theorem size_ofSize (n : ℕ) : (ofSize n).size = n := List.length_replicate

@[simp] theorem free_ofSize (n : ℕ) : (ofSize n).free = n := size_ofSize n

@[simp] theorem free_clear : b.clear.free = b.size := free_ofSize _

@[simp] theorem size_clear : b.clear.size = b.size := size_ofSize _

@[simp] theorem valid_clear : b.clear.valid = [] := rfl

@[simp] theorem size_fill (chunk : List CChar) : (b.fill chunk).size = b.size := by
  have := b.dataSize_le
  simp only [fill, valid, free, size, List.length_append, List.length_take, List.length_drop]
  omega

theorem valid_fill {chunk : List CChar} (h : chunk.length ≤ b.free) :
    (b.fill chunk).valid = b.valid ++ chunk := by
  have hchunk : chunk.take b.free = chunk := List.take_of_length_le h
  have hlen : b.dataSize + chunk.length = (b.valid ++ chunk).length := by simp
  simp only [valid, fill, hchunk]
  exact hlen ▸ List.take_left

@[simp] theorem size_read (n : ℕ) : (b.read n).size = b.size := by
  unfold read
  split
  · exact b.size_clear
  · have := b.dataSize_le
    simp only [size, List.length_append, List.length_take, List.length_drop,
      List.length_replicate]
    omega

theorem valid_read (n : ℕ) : (b.read n).valid = b.valid.drop n := by
  unfold read
  split
  · rename_i h
    rw [valid_clear, List.drop_of_length_le (by simpa using h)]
  · have := b.dataSize_le
    have hlen : ((b.buffer.drop n).take (b.dataSize - n)).length = b.dataSize - n := by
      simp only [List.length_take, List.length_drop]
      omega
    simp only [valid]
    rw [List.take_left' hlen, List.drop_take]

@[simp] theorem size_consume (n : ℕ) : (b.consume n).size = b.size := b.size_read _

/-- A count beyond the data is clamped, so it consumes everything. -/
theorem valid_consume (n : ℕ) : (b.consume n).valid = b.valid.drop n := by
  rw [consume, valid_read]
  rcases Nat.le_total n b.dataSize with h | h
  · rw [Nat.min_eq_left h]
  · rw [Nat.min_eq_right h, List.drop_of_length_le (by simp), List.drop_of_length_le (by simpa)]

end Lemmas

end SimpleBuffer

end SimpleRedis
