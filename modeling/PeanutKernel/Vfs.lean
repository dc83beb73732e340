import PeanutKernel.Path

/-!
# The pseudo files

`fs/vfs.c` and `fs/devtmpfs.c`. A `char*` is a `CPtr`: whether it is null, and the bytes from it on.
What the device files hand out of the hardware comes in as a `DevInput`; the text of
`/sys/devices/hdmi` is what `hdmi_init` found at boot.

`devMounted` stands for the flags `dev_mounted` and `mounted`, which `vfs_mount_devtmpfs` sets
together.
-/

namespace PeanutKernel

structure CPtr where
  null : Bool
  bytes : Buf

/-- A pointer to an array that holds a string. -/
def cptr (l : List UInt8) : CPtr := ⟨false, fun i => l.getD i 0⟩

/-- What is there to be read: the bytes of the entropy source, the characters the keyboard delivers
before `ps2_poll_char` first comes back empty, and the mouse packets before
`ps2_poll_mouse_packet` does. -/
structure DevInput where
  random : Buf
  kbd : List UInt8
  mouse : List (UInt8 × UInt8 × UInt8)

section Paths

/-- `path_has_prefix`, and `prefix` of `devtmpfs.c`. -/
def pathHasPrefix (path : Buf) (start : List UInt8) : Bool :=
  (List.range start.length).all (fun i => path i = start.getD i 0)
    && (path start.length = 0 || path start.length = 47)

def streq (a : Buf) (b : List UInt8) : Bool :=
  (List.range b.length).all (fun i => a i = b.getD i 0) && a b.length = 0

def vfsIsPseudoPath (path : CPtr) : Bool :=
  !path.null && path.bytes 0 = 47 &&
    (pathHasPrefix path.bytes (ascii "/proc") || pathHasPrefix path.bytes (ascii "/sys")
      || pathHasPrefix path.bytes (ascii "/dev") || pathHasPrefix path.bytes (ascii "/etc"))

def devtmpfsIsPath (devMounted : Bool) (path : CPtr) : Bool :=
  devMounted && !path.null && pathHasPrefix path.bytes (ascii "/dev")

end Paths

section Reading

/-- The bytes stored in the buffer: `pseudo_copy`, and `copy_text` of `devtmpfs.c`. -/
def pseudoCopy (s : List UInt8) (off len : ℕ) : List UInt8 :=
  if s.length ≤ off then []
  else (s.drop off).take (if len < s.length - off then len else s.length - off)

/-- The loop over mouse packets with `got` bytes stored. -/
def mouseLoop (len : ℕ) : ℕ → List (UInt8 × UInt8 × UInt8) → List UInt8
  | _, [] => []
  | got, (a, b, c) :: packets =>
    if (got + 3) % 2 ^ 32 ≤ len then a :: b :: c :: mouseLoop len (got + 3) packets else []

def devText : List UInt8 := ascii "zero\nrandom\nurandom\nkbd\nmouse\nfstab\n"

def fstabText : List UInt8 :=
  ascii "devtmpfs /dev devtmpfs rw 0 0\nproc /proc proc ro 0 0\nsysfs /sys sysfs ro 0 0\n"

/-- The bytes stored in the buffer, `none` for the error return. -/
def devtmpfsPread (devMounted : Bool) (dev : DevInput) (path : CPtr) (off : ℕ) (buf : CPtr)
    (len : ℕ) : Option (List UInt8) :=
  if !devMounted || path.null || buf.null then none
  else if streq path.bytes (ascii "/dev") then some (pseudoCopy devText off len)
  else if streq path.bytes (ascii "/dev/zero") then some (List.replicate len 0)
  else if streq path.bytes (ascii "/dev/random") then some (bytesOf dev.random len)
  else if streq path.bytes (ascii "/dev/urandom") then some (bytesOf dev.random len)
  else if streq path.bytes (ascii "/dev/kbd") then some (dev.kbd.take len)
  else if streq path.bytes (ascii "/dev/mouse") then some (mouseLoop len 0 dev.mouse)
  else if streq path.bytes (ascii "/dev/fstab") then some (pseudoCopy fstabText off len)
  else none

def procVersionText : List UInt8 := ascii "Peanut kernel pseudo proc\n"

def kernelNameText : List UInt8 := ascii "Peanut\n"

def passwdText : List UInt8 :=
  ascii "root:x:0:0:root:/root:/sbin/init\nuser:x:1000:1000:Peanut User:/home/user:/bin/sh\n"

def vfsPseudoPread (devMounted : Bool) (hdmiStatus : List UInt8) (dev : DevInput) (path : CPtr)
    (off : ℕ) (buf : CPtr) (len : ℕ) : Option (List UInt8) :=
  if path.null || buf.null then none
  else if devMounted && devtmpfsIsPath devMounted path then
    devtmpfsPread devMounted dev path off buf len
  else if pathHasPrefix path.bytes (ascii "/proc/version") then
    some (pseudoCopy procVersionText off len)
  else if pathHasPrefix path.bytes (ascii "/sys/kernel/name") then
    some (pseudoCopy kernelNameText off len)
  else if pathHasPrefix path.bytes (ascii "/sys/devices/hdmi") then
    some (pseudoCopy hdmiStatus off len)
  else if pathHasPrefix path.bytes (ascii "/etc/passwd") then
    some (pseudoCopy passwdText off len)
  else if pathHasPrefix path.bytes (ascii "/etc/fstab") then
    some (pseudoCopy fstabText off len)
  else none

end Reading

end PeanutKernel
