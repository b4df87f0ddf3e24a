import Harry.CString
import Harry.Range
import Harry.Config
import Harry.Binary32
import Harry.Packing
import Harry.Int32
import Harry.Compute
import Harry.Shard
import Harry.Symbolize
import Harry.Delim
import Harry.DelimTable
import Harry.Hash
