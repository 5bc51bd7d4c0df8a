/-! What comes of opening a file and reading it to its end. -/
namespace TableImport

/-- What is found under the name of a file. -/
inductive FileContent where
  /-- Nothing that can be opened. -/
  | missing
  /-- Something that can be opened but has no bytes to read, such as a directory. -/
  | unreadable
  | bytes (content : ByteArray)

end TableImport
