namespace Pager

inductive Errno
  | unsupported
  | eio
  | ebadf
  | enomem
  | eacces
  | efault
  | eexist
  | einval
  | enospc
deriving DecidableEq, Inhabited

namespace Errno

def all : List Errno :=
  [unsupported, eio, ebadf, enomem, eacces, efault, eexist, einval, enospc]

def code : Errno → Int
  | unsupported => -1024
  | eio => -5
  | ebadf => -9
  | enomem => -12
  | eacces => -13
  | efault => -14
  | eexist => -17
  | einval => -22
  | enospc => -28

def name : Errno → String
  | unsupported => "UNSUPPORTED"
  | eio => "EIO"
  | ebadf => "EBADF"
  | enomem => "ENOMEM"
  | eacces => "EACCES"
  | efault => "EFAULT"
  | eexist => "EEXIST"
  | einval => "EINVAL"
  | enospc => "ENOSPC"

def text : Errno → String
  | unsupported => "Do not support"
  | eio => "I/O error."
  | ebadf => "Bad file number."
  | enomem => "Out of memory"
  | eacces => "Permission denied."
  | efault => "Bad address."
  | eexist => "File exists."
  | einval => "Invalid argument."
  | enospc => "No space left on device."

def message (e : Errno) : String := e.name ++ ", \"" ++ e.text ++ "\""

def ofName? (s : String) : Option Errno := all.find? (fun e => e.name == s)

def ofCode? (n : Int) : Option Errno := all.find? (fun e => e.code == n)

def messageOfCode (n : Int) : String := ((ofCode? n).map message).getD "Unknown error"

theorem mem_all (e : Errno) : e ∈ all := by cases e <;> decide

theorem code_injective {e f : Errno} (h : e.code = f.code) : e = f := by
  cases e <;> cases f <;> first | rfl | exact absurd h (by decide)

theorem ofCode?_code (e : Errno) : ofCode? e.code = some e := by cases e <;> decide

end Errno

end Pager
