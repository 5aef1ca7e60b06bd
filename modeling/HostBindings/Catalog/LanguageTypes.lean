import HostBindings.Text

/-!
Object types of the language itself, exported by the host crate `js_sys`.
-/

namespace HostBindings.Catalog

/-- Names that `js_sys` exports. -/
def languageTypes : List Text :=
  List.map Text.ofString
    ["Array", "ArrayBuffer", "ArrayIter", "AsyncIterator", "BigInt", "BigInt64Array",
      "BigUint64Array", "Boolean", "DataView", "Date", "Error", "EvalError", "Float32Array",
      "Float64Array", "Function", "Generator", "Int8Array", "Int16Array", "Int32Array", "IntoIter",
      "Iter", "Iterator", "IteratorNext", "JsString", "Map", "Number", "Object", "Promise",
      "Proxy", "RangeError", "ReferenceError", "RegExp", "Set", "SharedArrayBuffer", "Symbol",
      "SyntaxError", "TypeError", "Uint8Array", "Uint8ClampedArray", "Uint16Array", "Uint32Array",
      "UriError", "WeakMap", "WeakSet"]

end HostBindings.Catalog
