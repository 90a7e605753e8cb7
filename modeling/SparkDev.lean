import SparkDev.Cdc.Envelope
import SparkDev.Cdc.Guard
import SparkDev.Cdc.Mirror
import SparkDev.Cdc.Replay
import SparkDev.Cdc.Sink
import SparkDev.Cdc.Source
import SparkDev.Sql.Keyed
import SparkDev.Sql.Latest
import SparkDev.Sql.Merge
import SparkDev.Sql.Window
import SparkDev.Runs.Chain
import SparkDev.Dbt.Orders
import SparkDev.Dbt.Quarantine
import SparkDev.Trees.Rose
import SparkDev.Polyglot.Fixups
import SparkDev.Polyglot.Transpile
import SparkDev.Capstone.Dag
import SparkDev.Capstone.Ingest
import SparkDev.Capstone.Green
import SparkDev.Capstone.Mart
import SparkDev.Dbt.Reconcile
import SparkDev.Spark.Salting
import SparkDev.Polyglot.Frame
import SparkDev.Polyglot.Meaning
import SparkDev.Runs.Stream
import SparkDev.Kafka.DeadLetter
import SparkDev.Dbt.Uniqueness
import SparkDev.Dbt.Rerun
import SparkDev.Dbt.InOrder
import SparkDev.Dbt.Evolving
import SparkDev.Airflow.Partitions
import SparkDev.Dbt.Gates
import SparkDev.Sql.ConcatWs
import SparkDev.Dbt.SurrogateKey
import SparkDev.Dbt.TopOne
import SparkDev.Py.Dict
import SparkDev.Spark.Profiles
import SparkDev.Connect.Names
import SparkDev.Runs.Poll
import SparkDev.Connect.Teardown
import SparkDev.Connect.Events
import SparkDev.Kafka.Topic
import SparkDev.Spark.StageMetrics
import SparkDev.Spark.Datagen
import SparkDev.Cdc.Connector
import SparkDev.Cdc.Pipeline
import SparkDev.Cdc.Labs
import SparkDev.Iceberg.Maintenance
import SparkDev.Kafka.Offsets
import SparkDev.Kafka.Compaction
import SparkDev.Kafka.Watermarking
import SparkDev.Kafka.Partitioning
import SparkDev.Airflow.Branching
import SparkDev.Airflow.Retries
import SparkDev.Airflow.Gate
import SparkDev.Dbt.Customers
import SparkDev.Dbt.Snapshot
