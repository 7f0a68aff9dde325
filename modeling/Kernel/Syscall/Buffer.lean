import Kernel.Machine

/-!
# User buffers (`syscall.cc`)

What a system call checks of a buffer before it asks for its pages.
-/

namespace Kernel

def userTopExclusive : Nat := 0x0000800000000000

def is_valid_user_buffer (ptr len : Nat) : Bool :=
  if len = 0 then true
  else if ptr ≥ userTopExclusive then false
  else
    let last := sub64 (add64 ptr len) 1
    if last < ptr then false
    else if last ≥ userTopExclusive then false
    else true

end Kernel
