namespace Pager

abbrev pageBits : Nat := 12

abbrev pageSize : Nat := 4096

abbrev offsetMask : Nat := pageSize - 1

abbrev sectorSize : Nat := 512

abbrev sectorsPerPage : Nat := 8

abbrev wordBound : Nat := 0x10000000000000000

theorem pageSize_eq_shift : pageSize = 1 <<< pageBits := rfl

theorem sectorsPerPage_mul : sectorsPerPage * sectorSize = pageSize := rfl

end Pager
