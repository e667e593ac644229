import Lindb.Go
import Lindb.Memdb.FieldStore
import Lindb.Memdb.TagIndex
import Lindb.Memdb.MetricStore
import Lindb.Memdb.Database
import Lindb.Theorems.FieldStore
import Lindb.Theorems.Stores
import Lindb.Theorems.MetricStore
import Lindb.Theorems.Database
import Lindb.Theorems.Flush
import Lindb.Theorems.Families
import Lindb.Theorems.Retention
import Lindb.Theorems.Query
import Lindb.Theorems.Suggest
import Lindb.Theorems.InvertedIndex
import Lindb.Theorems.ForwardIndex
import Lindb.Theorems.Sizes
import Lindb.Theorems.Counter
import Lindb.Theorems.Limits
import Lindb.Theorems.Evictor
import Lindb.Concurrent.Model
import Lindb.Concurrent.Steps
import Lindb.Concurrent.Buckets
import Lindb.Concurrent.Ids
import Lindb.Concurrent.Solo
import Lindb.Concurrent.Fields
import Lindb.Concurrent.Background
import Lindb.Concurrent.Serial
import Lindb.Concurrent.Writers
import Lindb.Concurrent.Retention
import Lindb.Concurrent.Handles
import Lindb.Concurrent.Series
