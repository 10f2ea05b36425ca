import VideoStream.Library.Strided
import VideoStream.Utils.Conversions

/-!
# Mats and numpy arrays

`utils::to_numpy` describes the block of a `cv::Mat` by a shape and by strides. `utils::to_mat` goes
back by the shape alone: it takes the block for one without gaps, and every number of channels but 1
and 3 for 4.

* A round trip keeps the Mat exactly when it is not empty and has 1, 3 or 4 channels
  (`roundTrips_iff`).
* An array keeps its pixels exactly when its strides are those of C order, on the axes where that
  matters (`preserves_iff`).

Memory is a function from addresses to bytes. What the two functions call of OpenCV and of pybind11 is
a parameter, and `MatLibrary.Lawful` is what is documented of it.
-/

namespace VideoStream

open Library.Strided

/-- A `cv::Mat` of two dimensions with elements of 8 bits: `data` is an address, and `step` is
`step[0]`, in bytes. The element size, which is `step[1]`, is the number of channels. -/
structure ByteMat where
  rows : Int
  cols : Int
  channels : Nat
  data : Int
  step : Nat
  deriving DecidableEq, Repr

/-- `py::array_t<uint8_t>`, as `request` describes it. -/
structure NumpyArray where
  ptr : Int
  shape : List Nat
  strides : List Int
  ndim : strides.length = shape.length

namespace ByteMat

/-- There is no block, or there are no elements. -/
def empty (m : ByteMat) : Bool := m.data = 0 ∨ m.rows * m.cols = 0

/-- The channel `c` of the pixel in row `i` and column `j`, through the row step. -/
def pixel (m : ByteMat) (mem : Int → UInt8) (i j c : Nat) : UInt8 :=
  mem (m.data + (i * m.step + j * m.channels + c))

/-- A Mat that OpenCV makes, and that is continuous: there are no gaps between its rows. -/
structure Continuous (m : ByteMat) : Prop where
  rows : 0 ≤ m.rows ∧ m.rows < 2 ^ 31
  cols : 0 ≤ m.cols ∧ m.cols < 2 ^ 31
  channels : 1 ≤ m.channels ∧ m.channels ≤ 512
  step : m.rows ≤ 1 ∨ (m.step : Int) = m.cols * m.channels

/-- A Mat over a block without gaps. -/
def ofData (rows cols : Int) (channels : Nat) (data : Int) : ByteMat where
  rows := rows
  cols := cols
  channels := channels
  data := data
  step := sizeT (cols * channels)

theorem ofData_channels (rows cols : Int) (channels : Nat) (data : Int) :
    (ofData rows cols channels data).channels = channels :=
  rfl

end ByteMat

namespace NumpyArray

def element (a : NumpyArray) (mem : Int → UInt8) (idx : List Nat) : UInt8 :=
  mem (a.ptr + offset a.strides idx)

/-- An array of two dimensions has one channel. -/
def channelCount (a : NumpyArray) : Nat := if a.shape.length = 3 then a.shape.getD 2 0 else 1

theorem channelCount_of_pair {a : NumpyArray} {rows cols : Nat} (h : a.shape = [rows, cols]) :
    a.channelCount = 1 := by
  simp [channelCount, h]

theorem channelCount_of_triple {a : NumpyArray} {rows cols channels : Nat}
    (h : a.shape = [rows, cols, channels]) : a.channelCount = channels := by
  simp [channelCount, h]

end NumpyArray

/-- `cv::Mat::empty`, the constructor of a Mat from rows, columns, channels and a block, with
`AUTO_STEP`, and the array `py::array_t<uint8_t>()`. -/
structure MatLibrary where
  empty : ByteMat → Bool
  mat : Int → Int → Nat → Int → ByteMat
  array : NumpyArray

/-- A Mat is empty without a block or without elements. The constructor takes the block as it is, and
assumes that there are no gaps between the rows; its assertion, that a Mat with elements has a block,
holds of the block of every array. The array without arguments has one axis, of length 0. -/
structure MatLibrary.Lawful (lib : MatLibrary) : Prop where
  empty : ∀ m, lib.empty m = true ↔ m.data = 0 ∨ m.rows * m.cols = 0
  rows : ∀ rows cols channels data, (lib.mat rows cols channels data).rows = rows
  cols : ∀ rows cols channels data, (lib.mat rows cols channels data).cols = cols
  channels : ∀ rows cols channels data, (lib.mat rows cols channels data).channels = channels
  data : ∀ rows cols channels data, (lib.mat rows cols channels data).data = data
  step : ∀ rows cols channels data,
    (lib.mat rows cols channels data).step = sizeT (cols * channels)
  array : lib.array.shape = [0]

namespace MatLibrary

variable {lib : MatLibrary}

theorem Lawful.empty_eq (hlib : lib.Lawful) (m : ByteMat) : lib.empty m = m.empty := by
  rw [Bool.eq_iff_iff, hlib.empty, ByteMat.empty, decide_eq_true_iff]

theorem Lawful.mat_eq (hlib : lib.Lawful) (rows cols : Int) (channels : Nat) (data : Int) :
    lib.mat rows cols channels data = .ofData rows cols channels data := by
  calc
    lib.mat rows cols channels data = ⟨(lib.mat rows cols channels data).rows,
        (lib.mat rows cols channels data).cols, (lib.mat rows cols channels data).channels,
        (lib.mat rows cols channels data).data, (lib.mat rows cols channels data).step⟩ := rfl
    _ = .ofData rows cols channels data := by
      rw [hlib.rows, hlib.cols, hlib.channels, hlib.data, hlib.step, ByteMat.ofData]

end MatLibrary

/-- `utils::to_numpy`. -/
def toNumpy (lib : MatLibrary) (mat : ByteMat) : NumpyArray :=
  if lib.empty mat then lib.array
  else
    { ptr := mat.data
      shape := [sizeT mat.rows, sizeT mat.cols, mat.channels]
      strides := [mat.step, mat.channels, 1]
      ndim := rfl }

/-- The number of channels of the type that `to_mat` chooses. -/
def matChannels (channels : Int) : Nat := if channels = 1 then 1 else if channels = 3 then 3 else 4

/-- `utils::to_mat`. -/
def toMat (lib : MatLibrary) (input : NumpyArray) : Except String ByteMat :=
  if input.shape.length ≠ 2 ∧ input.shape.length ≠ 3 then
    throw "Only 2D or 3D numpy arrays supported"
  else
    let rows := toInt (input.shape.getD 0 0)
    let cols := toInt (input.shape.getD 1 0)
    let channels := if input.shape.length = 3 then toInt (input.shape.getD 2 0) else 1
    pure (lib.mat rows cols (matChannels channels) input.ptr)

variable {lib : MatLibrary}

/-! ## What `to_mat` makes of a shape -/

theorem matChannels_toInt (n : Nat) : matChannels (toInt n) = n ↔ n = 1 ∨ n = 3 ∨ n = 4 := by
  constructor
  · intro h
    unfold matChannels at h
    split at h
    · exact .inl h.symm
    · split at h
      · exact .inr (.inl h.symm)
      · exact .inr (.inr h.symm)
  · intro h
    rcases h with rfl | rfl | rfl <;> decide

theorem toMat_of_pair (hlib : lib.Lawful) {a : NumpyArray} {rows cols : Nat}
    (h : a.shape = [rows, cols]) :
    toMat lib a = .ok (.ofData (toInt rows) (toInt cols) 1 a.ptr) := by
  unfold toMat
  rw [h, if_neg (by simp), ← hlib.mat_eq]
  rfl

theorem toMat_of_triple (hlib : lib.Lawful) {a : NumpyArray} {rows cols channels : Nat}
    (h : a.shape = [rows, cols, channels]) :
    toMat lib a = .ok (.ofData (toInt rows) (toInt cols) (matChannels (toInt channels)) a.ptr) := by
  unfold toMat
  rw [h, if_neg (by simp), ← hlib.mat_eq]
  simp only [List.length_cons, List.length_nil, Nat.zero_add, Nat.reduceAdd, if_true,
    List.getD_cons_zero, List.getD_cons_succ]
  rfl

theorem toMat_of_one {a : NumpyArray} {n : Nat} (h : a.shape = [n]) :
    toMat lib a = .error "Only 2D or 3D numpy arrays supported" := by
  unfold toMat
  rw [h, if_pos (by simp)]
  rfl

/-- The step of a Mat over a block, if its size is that of a Mat. -/
theorem ofData_step {cols channels : Nat} (hcols : cols < 2 ^ 31) (hchannels : channels ≤ 512)
    (rows data : Int) : (ByteMat.ofData rows cols channels data).step = cols * channels := by
  have hcast : (cols : Int) * channels = ((cols * channels : Nat) : Int) := (Nat.cast_mul ..).symm
  have hlt : cols * channels < 2 ^ 64 := by
    calc
      cols * channels ≤ cols * 512 := Nat.mul_le_mul_left cols hchannels
      _ < 2 ^ 64 := by omega
  rw [ByteMat.ofData, hcast, sizeT_ofNat hlt]

/-! ## The pixels -/

/-- The index of a pixel: an array of two dimensions has the channel 0 only. -/
def ByteMat.at (m : ByteMat) (mem : Int → UInt8) (idx : List Nat) : UInt8 :=
  m.pixel mem (idx.getD 0 0) (idx.getD 1 0) (idx.getD 2 0)

/-- Whatever is in the memory, the Mat has the elements of the array. -/
def Preserves (a : NumpyArray) (m : ByteMat) : Prop :=
  ∀ mem : Int → UInt8, ∀ idx, InBounds a.shape idx → m.at mem idx = a.element mem idx

theorem ofData_pixel {cols channels : Nat} (hcols : cols < 2 ^ 31) (hchannels : channels ≤ 512)
    (rows data : Int) (mem : Int → UInt8) (i j c : Nat) :
    (ByteMat.ofData rows cols channels data).pixel mem i j c =
      mem (data + (i * (cols * channels) + j * channels + c)) := by
  unfold ByteMat.pixel
  rw [ofData_step hcols hchannels, Nat.cast_mul]
  rfl

/-- A Mat that is read with the strides of C order keeps what these strides and those of the array
find in the same place. -/
theorem preserves_iff_of_packed {a : NumpyArray} {m : ByteMat}
    (h : ∀ mem idx, InBounds a.shape idx →
      m.at mem idx = mem (a.ptr + offset (packed a.shape) idx)) :
    Preserves a m ↔ 0 ∈ a.shape ∨ AgreeOnLong a.shape a.strides (packed a.shape) := by
  rw [← forall_offset_eq_iff a.ndim (length_packed a.shape)]
  constructor
  · intro hp idx hidx
    have hmem : ∀ mem : Int → UInt8,
        mem (a.ptr + offset a.strides idx) = mem (a.ptr + offset (packed a.shape) idx) := by
      intro mem
      rw [← h mem idx hidx]
      exact (hp mem idx hidx).symm
    have : Nontrivial UInt8 := ⟨0, 1, by decide⟩
    exact Int.add_left_cancel (forall_memory_iff.mp hmem)
  · intro hoffset mem idx hidx
    rw [h mem idx hidx, NumpyArray.element, hoffset idx hidx]

theorem ofData_at_pair {cols : Nat} (hcols : cols < 2 ^ 31) (rows data : Int) {n : Nat}
    (mem : Int → UInt8) {idx : List Nat} (hidx : InBounds [n, cols] idx) :
    (ByteMat.ofData rows cols 1 data).at mem idx = mem (data + offset (packed [n, cols]) idx) := by
  obtain ⟨i, j, rfl⟩ := List.length_eq_two.mp hidx.length_eq.symm
  unfold ByteMat.at
  rw [ofData_pixel hcols (by decide)]
  simp [packed, offset]

theorem ofData_at_triple {cols channels : Nat} (hcols : cols < 2 ^ 31) (hchannels : channels ≤ 512)
    (rows data : Int) {n : Nat} (mem : Int → UInt8) {idx : List Nat}
    (hidx : InBounds [n, cols, channels] idx) :
    (ByteMat.ofData rows cols channels data).at mem idx =
      mem (data + offset (packed [n, cols, channels]) idx) := by
  obtain ⟨i, j, c, rfl⟩ := List.length_eq_three.mp hidx.length_eq.symm
  unfold ByteMat.at
  rw [ofData_pixel hcols hchannels]
  simp [packed, offset, Int.add_assoc]

/-- `to_mat` keeps every pixel of an array, whatever it holds, exactly when the strides of the array
are those of C order on the axes that are longer than one, or the array has no elements. -/
theorem preserves_iff (hlib : lib.Lawful) {a : NumpyArray} {rows cols : Nat}
    (hshape : a.shape = [rows, cols] ∨
      ∃ channels, (channels = 1 ∨ channels = 3 ∨ channels = 4) ∧ a.shape = [rows, cols, channels])
    (hrows : rows < 2 ^ 31) (hcols : cols < 2 ^ 31) :
    ∃ m, toMat lib a = .ok m ∧ m.rows = rows ∧ m.cols = cols ∧ m.channels = a.channelCount ∧
      (Preserves a m ↔ 0 ∈ a.shape ∨ AgreeOnLong a.shape a.strides (packed a.shape)) := by
  rcases hshape with hshape | ⟨channels, hchannels, hshape⟩
  · have hmat : toMat lib a = .ok (.ofData rows cols 1 a.ptr) := by
      rw [toMat_of_pair hlib hshape, toInt_of_lt hrows, toInt_of_lt hcols]
    have hcount := NumpyArray.channelCount_of_pair hshape
    refine ⟨_, hmat, rfl, rfl, hcount.symm, preserves_iff_of_packed fun mem idx hidx => ?_⟩
    rw [hshape] at hidx ⊢
    exact ofData_at_pair hcols _ _ mem hidx
  · have hcount := NumpyArray.channelCount_of_triple hshape
    have hmat : toMat lib a = .ok (.ofData rows cols channels a.ptr) := by
      rw [toMat_of_triple hlib hshape, toInt_of_lt hrows, toInt_of_lt hcols,
        (matChannels_toInt channels).mpr hchannels]
    have hle : channels ≤ 512 := by omega
    refine ⟨_, hmat, rfl, rfl, hcount.symm, preserves_iff_of_packed fun mem idx hidx => ?_⟩
    rw [hshape] at hidx ⊢
    exact ofData_at_triple hcols hle _ _ mem hidx

/-- OpenCV and pybind11 as they are. -/
def opencv : MatLibrary where
  empty := ByteMat.empty
  mat := ByteMat.ofData
  array :=
    { ptr := 0
      shape := [0]
      strides := [1]
      ndim := rfl }

theorem opencv_lawful : opencv.Lawful where
  empty m := by
    show decide _ = true ↔ _
    exact decide_eq_true_iff
  rows _ _ _ _ := rfl
  cols _ _ _ _ := rfl
  channels _ _ _ _ := rfl
  data _ _ _ _ := rfl
  step _ _ _ _ := rfl
  array := rfl

/-- An image in C order with three channels, at the address 16. -/
def contiguousArray : NumpyArray where
  ptr := 16
  shape := [2, 3, 3]
  strides := [9, 3, 1]
  ndim := rfl

/-- The transpose of an image of two rows and two columns. -/
def transposedArray : NumpyArray where
  ptr := 16
  shape := [2, 2]
  strides := [1, 2]
  ndim := rfl

theorem preserves_iff_contiguous :
    ∃ m, toMat opencv contiguousArray = .ok m ∧ m.rows = (2 : Nat) ∧ m.cols = (3 : Nat) ∧
      m.channels = contiguousArray.channelCount ∧
      (Preserves contiguousArray m ↔ 0 ∈ contiguousArray.shape ∨
        AgreeOnLong contiguousArray.shape contiguousArray.strides (packed contiguousArray.shape)) ∧
      Preserves contiguousArray m := by
  obtain ⟨m, hm, hrows, hcols, hchannels, hiff⟩ := preserves_iff opencv_lawful
    (a := contiguousArray) (.inr ⟨3, by decide, rfl⟩) (by decide : 2 < 2 ^ 31) (by decide : 3 < 2 ^ 31)
  exact ⟨m, hm, hrows, hcols, hchannels, hiff, hiff.mpr (.inr (by decide))⟩

/-- The element in row 0 and column 1 is read from where the array has row 1 and column 0. -/
theorem transposed_not_preserved :
    ∃ m, toMat opencv transposedArray = .ok m ∧ ¬ Preserves transposedArray m := by
  refine ⟨_, toMat_of_pair opencv_lawful rfl, fun h => ?_⟩
  have hpixel := h (fun x => if x = 17 then 1 else 0) [0, 1]
    (.cons (by decide) (.cons (by decide) .nil))
  exact absurd hpixel (by decide)

/-! ## The round trip -/

/-- `to_mat` takes back what `to_numpy` made of the Mat, with the same size and the same pixels. -/
def RoundTrips (lib : MatLibrary) (m : ByteMat) : Prop :=
  ∃ m', toMat lib (toNumpy lib m) = .ok m' ∧ m'.rows = m.rows ∧ m'.cols = m.cols ∧
    m'.channels = m.channels ∧
    ∀ mem : Int → UInt8, ∀ i j c : Nat, i < m.rows → j < m.cols → c < m.channels →
      m'.pixel mem i j c = m.pixel mem i j c

/-- If `to_mat` takes the array, the Mat has its channels. -/
def KeepsChannels (lib : MatLibrary) (a : NumpyArray) : Prop :=
  ∀ m, toMat lib a = .ok m → m.channels = a.channelCount

theorem not_roundTrips_of_empty (hlib : lib.Lawful) {m : ByteMat} (h : m.empty = true) :
    ¬ RoundTrips lib m := by
  intro ⟨m', hm', _⟩
  have hone : (toNumpy lib m).shape = [0] := by
    rw [toNumpy, if_pos ((hlib.empty_eq m).trans h), hlib.array]
  rw [toMat_of_one hone] at hm'
  exact nomatch hm'

/-- What `to_numpy` says of a Mat that is not empty. -/
theorem toNumpy_of_not_empty (hlib : lib.Lawful) {m : ByteMat} (h : m.empty = false) :
    (toNumpy lib m).shape = [sizeT m.rows, sizeT m.cols, m.channels] ∧
      (toNumpy lib m).ptr = m.data := by
  rw [toNumpy, if_neg (by rw [hlib.empty_eq m, h]; decide)]
  exact ⟨rfl, rfl⟩

/-- The Mat that comes back, of a Mat that is not empty. -/
theorem toMat_toNumpy (hlib : lib.Lawful) {m : ByteMat} (hm : m.Continuous) (h : m.empty = false) :
    toMat lib (toNumpy lib m) =
      .ok (.ofData m.rows m.cols (matChannels (toInt m.channels)) m.data) := by
  have hsize : ∀ n : Int, 0 ≤ n ∧ n < 2 ^ 31 → toInt (sizeT n) = n := by
    intro n hn
    obtain ⟨k, rfl⟩ := Int.eq_ofNat_of_zero_le hn.1
    have hk : k < 2 ^ 31 := by omega
    rw [sizeT_ofNat (by omega), toInt_of_lt hk]
  obtain ⟨hshape, hptr⟩ := toNumpy_of_not_empty hlib h
  rw [toMat_of_triple hlib hshape, hptr, hsize _ hm.rows, hsize _ hm.cols]

theorem roundTrips_of_channels (hlib : lib.Lawful) {m : ByteMat} (hm : m.Continuous)
    (h : m.empty = false) (hchannels : m.channels = 1 ∨ m.channels = 3 ∨ m.channels = 4) :
    RoundTrips lib m := by
  obtain ⟨cols, hcols⟩ := Int.eq_ofNat_of_zero_le hm.cols.1
  have hlt : cols < 2 ^ 31 := by
    have := hm.cols.2
    omega
  have hmat : toMat lib (toNumpy lib m) = .ok (.ofData m.rows cols m.channels m.data) := by
    rw [toMat_toNumpy hlib hm h, (matChannels_toInt _).mpr hchannels, hcols]
  refine ⟨_, hmat, rfl, hcols.symm, rfl, fun mem i j c hi _ _ => ?_⟩
  have hrow : (i : Int) * (cols * m.channels) = i * m.step := by
    rcases hm.step with hone | hstep
    · have hi0 : i = 0 := by omega
      rw [hi0, Nat.cast_zero, Int.zero_mul, Int.zero_mul]
    · rw [hstep, hcols]
  rw [ofData_pixel hlt hm.channels.2, hrow]
  rfl

theorem keepsChannels_iff_of_triple (hlib : lib.Lawful) {a : NumpyArray} {rows cols channels : Nat}
    (h : a.shape = [rows, cols, channels]) :
    KeepsChannels lib a ↔ matChannels (toInt channels) = channels := by
  unfold KeepsChannels
  rw [toMat_of_triple hlib h, NumpyArray.channelCount_of_triple h]
  constructor
  · intro hkeeps
    have hmat := hkeeps _ rfl
    rwa [ByteMat.ofData_channels] at hmat
  · intro hchannels m hm
    have hmat : m.channels = matChannels (toInt channels) := by
      rw [← Except.ok.inj hm, ByteMat.ofData_channels]
    exact hmat.trans hchannels

theorem keepsChannels_iff (hlib : lib.Lawful) {a : NumpyArray}
    (h : a.shape.length = 2 ∨ a.shape.length = 3) :
    KeepsChannels lib a ↔ a.channelCount = 1 ∨ a.channelCount = 3 ∨ a.channelCount = 4 := by
  rcases h with h | h
  · obtain ⟨rows, cols, hshape⟩ := List.length_eq_two.mp h
    have hcount := NumpyArray.channelCount_of_pair hshape
    refine iff_of_true (fun m hm => ?_) (.inl hcount)
    rw [toMat_of_pair hlib hshape] at hm
    rw [← Except.ok.inj hm, hcount]
    rfl
  · obtain ⟨rows, cols, channels, hshape⟩ := List.length_eq_three.mp h
    rw [keepsChannels_iff_of_triple hlib hshape, NumpyArray.channelCount_of_triple hshape,
      matChannels_toInt]

/-- A continuous Mat comes back as it was exactly when it is not empty and has 1, 3 or 4 channels, and
an array keeps its channels exactly when it has 1, 3 or 4 of them. -/
theorem roundTrips_iff (hlib : lib.Lawful) {m : ByteMat} (hm : m.Continuous) {a : NumpyArray}
    (ha : a.shape.length = 2 ∨ a.shape.length = 3) :
    (RoundTrips lib m ↔ m.empty = false ∧ (m.channels = 1 ∨ m.channels = 3 ∨ m.channels = 4)) ∧
      (KeepsChannels lib a ↔ a.channelCount = 1 ∨ a.channelCount = 3 ∨ a.channelCount = 4) := by
  refine ⟨⟨fun h => ?_, fun h => roundTrips_of_channels hlib hm h.1 h.2⟩,
    keepsChannels_iff hlib ha⟩
  have hne : m.empty = false := by
    by_contra hempty
    exact not_roundTrips_of_empty hlib (by simpa using hempty) h
  obtain ⟨m', hm', _, _, hchannels, _⟩ := h
  rw [toMat_toNumpy hlib hm hne] at hm'
  rw [← Except.ok.inj hm', ByteMat.ofData_channels] at hchannels
  exact ⟨hne, (matChannels_toInt _).mp hchannels⟩

/-- The array of two rows, three columns and three channels, and its Mat. -/
def contiguousMat : ByteMat where
  rows := 2
  cols := 3
  channels := 3
  data := 16
  step := 9

theorem contiguousMat_continuous : contiguousMat.Continuous where
  rows := by decide
  cols := by decide
  channels := by decide
  step := by decide

theorem roundTrips_iff_contiguous :
    RoundTrips opencv contiguousMat ∧ KeepsChannels opencv contiguousArray := by
  obtain ⟨hmat, harray⟩ := roundTrips_iff opencv_lawful contiguousMat_continuous
    (a := contiguousArray) (.inr rfl)
  exact ⟨hmat.mpr (by decide), harray.mpr (by decide)⟩

/-- Two columns of two channels. -/
def twoChannels : ByteMat where
  rows := 1
  cols := 2
  channels := 2
  data := 16
  step := 4

/-- `cv::Mat()`. -/
def emptyMat : ByteMat where
  rows := 0
  cols := 0
  channels := 1
  data := 0
  step := 0

/-- A Mat of two channels comes back with four, as an array of two channels does, and the empty Mat
does not come back. -/
theorem roundTrip_fails :
    (twoChannels.Continuous ∧ ¬ RoundTrips opencv twoChannels) ∧
      (emptyMat.Continuous ∧ ¬ RoundTrips opencv emptyMat) ∧
      ¬ KeepsChannels opencv (toNumpy opencv twoChannels) := by
  refine ⟨⟨⟨by decide, by decide, by decide, by decide⟩, ?_⟩,
    ⟨⟨by decide, by decide, by decide, by decide⟩,
      not_roundTrips_of_empty opencv_lawful (by decide)⟩, ?_⟩
  · intro ⟨m', hm', _, _, hchannels, _⟩
    rw [toMat_of_triple opencv_lawful rfl] at hm'
    rw [← Except.ok.inj hm', ByteMat.ofData_channels] at hchannels
    exact absurd hchannels (by decide)
  · intro h
    have hchannels := h _ (toMat_of_triple opencv_lawful rfl)
    rw [ByteMat.ofData_channels] at hchannels
    exact absurd hchannels (by decide)

end VideoStream
