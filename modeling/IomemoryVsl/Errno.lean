/-! The error numbers of `errno.h` that the driver returns. -/

namespace IomemoryVsl

def enoent : Int := 2

def eio : Int := 5

def enxio : Int := 6

def eagain : Int := 11

def enomem : Int := 12

def efault : Int := 14

def ebusy : Int := 16

def eexist : Int := 17

def enodev : Int := 19

def einval : Int := 22

def enospc : Int := 28

theorem neg_eagain_ne_zero : -eagain ≠ 0 := by decide

theorem neg_einval_ne_zero : -einval ≠ 0 := by decide

end IomemoryVsl
